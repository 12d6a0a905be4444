import TradingPipeline.Feedhandler.Loop

/-! What the event loop makes of the completions.

A buffer is not posted while an entry of its completion waits, so the loop still finds in it
the bytes that the kernel has delivered.
-/

set_option autoImplicit false

namespace TradingPipeline.Feedhandler

open Foundation Shmbus

namespace HandlerEvent

/-- The completions, in the order in which the kernel queues them. -/
def completions (history : List HandlerEvent) : List (Fin recvBatch × Delivery) :=
  history.filterMap fun | .completed idx delivery => some (idx, delivery) | _ => none

/-- The completions that the loop has handled, with what it found in the buffers. -/
def handlings (history : List HandlerEvent) : List (Fin recvBatch × Delivery) :=
  history.filterMap fun | .handled idx delivery _ => some (idx, delivery) | _ => none

/-- The handled completions with a result that is not negative. -/
def datagrams (history : List HandlerEvent) : List (List UInt8) :=
  history.filterMap fun | .handled _ (.data bytes) _ => some bytes | _ => none

/-- The decoded datagrams with their stamps, without those counted in `publish_drops`. -/
def undropped (history : List HandlerEvent) : List (List UInt8 × UInt64) :=
  history.foldl (fun ticks event =>
    match event with
    | .handled _ (.data bytes) (.stamped recvTsNs) => ticks ++ [(bytes, recvTsNs)]
    | .published false => ticks.dropLast
    | _ => ticks) []

section Append

variable (first second : List HandlerEvent)

@[simp] theorem completions_append :
    completions (first ++ second) = completions first ++ completions second :=
  List.filterMap_append

@[simp] theorem handlings_append :
    handlings (first ++ second) = handlings first ++ handlings second :=
  List.filterMap_append

@[simp] theorem datagrams_append :
    datagrams (first ++ second) = datagrams first ++ datagrams second :=
  List.filterMap_append

@[simp] theorem undropped_stamped (history : List HandlerEvent) (idx : Fin recvBatch)
    (bytes : List UInt8) (recvTsNs : UInt64) :
    undropped (history ++ [.handled idx (.data bytes) (.stamped recvTsNs)]) =
      undropped history ++ [(bytes, recvTsNs)] := by
  simp [undropped]

@[simp] theorem undropped_refused (history : List HandlerEvent) :
    undropped (history ++ [.published false]) = (undropped history).dropLast := by
  simp [undropped]

end Append
end HandlerEvent

open HandlerEvent

/-- What a verdict says about the delivery. -/
def Verdict.Fits : Delivery → Verdict → Prop
  | .error _, .failed => True
  | .data bytes, .bad => bytes.length < MarketTick.size
  | .data bytes, .stamped _ => MarketTick.size ≤ bytes.length
  | _, _ => False

/-- The entries of the batch that have not been handled yet. -/
def HandlerPc.batch : HandlerPc → Batch
  | .handle done | .publish done _ _ | .submitRecv done _ => done
  | _ => []

/-- The buffer whose completion is being handled. -/
def HandlerPc.current : HandlerPc → List (Fin recvBatch)
  | .publish _ idx _ | .submitRecv _ idx => [idx]
  | _ => []

/-- A tick has been decoded and `try_publish` has not returned. -/
def HandlerPc.publishing : HandlerPc → UInt64
  | .publish _ _ _ => 1
  | _ => 0

/-- The entries that wait to be handled. -/
def Handler.waiting (handler : Handler) : Batch := handler.pc.batch ++ recvs handler.completions

/-- The buffers with a completion that has not been dealt with. -/
def Handler.busy (handler : Handler) : List (Fin recvBatch) :=
  handler.pc.current ++ handler.waiting.map Prod.fst

/-- What the loop would find for the waiting entries. -/
def Handler.found (handler : Handler) : List (Fin recvBatch × Delivery) :=
  handler.waiting.map fun entry => (entry.1, delivered (handler.buffers entry.1) entry.2)

section Buffers

variable (buffer : Buffer)

theorem take_overwrite {bytes : List UInt8} (fits : bytes.length ≤ bufSize) :
    (buffer.overwrite bytes).toList.take bytes.length = bytes := by
  apply List.ext_getElem
  · simp [fits]
  · intro position bound inside
    simp [Buffer.overwrite, inside]

theorem delivered_data {bytes : List UInt8} (fits : bytes.length ≤ bufSize) :
    delivered (buffer.overwrite bytes) bytes.length = .data bytes := by
  have nonneg : ¬ (bytes.length : Int) < 0 := by omega
  rw [delivered, if_neg nonneg, Int.toNat_natCast, take_overwrite buffer fits]

theorem delivered_error {errno : Nat} (positive : 0 < errno) :
    delivered buffer (-errno) = .error errno := by
  have negative : -(errno : Int) < 0 := by omega
  rw [delivered, if_pos negative, Int.neg_neg, Int.toNat_natCast]

end Buffers

section Counted

variable (handler : Handler) (accepted : Bool)

@[simp] theorem counted_completions :
    (handler.counted accepted).completions = handler.completions := by
  cases accepted <;> rfl

@[simp] theorem counted_buffers : (handler.counted accepted).buffers = handler.buffers := by
  cases accepted <;> rfl

@[simp] theorem counted_posted : (handler.counted accepted).posted = handler.posted := by
  cases accepted <;> rfl

end Counted

section Handling

variable (handler : Handler) (idx : Fin recvBatch) (result : Int) (done : Batch) (nowNs : UInt64)
  (padding : Vector UInt8 4)

/-- The three ways through one round of the `for` loop. `parse_tick` never refuses what the
length test has let through. -/
inductive Handled : Handler × Verdict → Prop where
  | failed (found : ∃ errno, delivered (handler.buffers idx) result = .error errno) :
      Handled (handler.setPc (.submitRecv done idx), .failed)
  | bad {bytes : List UInt8} (found : delivered (handler.buffers idx) result = .data bytes)
      (short : bytes.length < MarketTick.size) :
      Handled ({ handler with
        pc := .submitRecv done idx
        badPackets := handler.badPackets + 1 }, .bad)
  | stamped {bytes : List UInt8} (found : delivered (handler.buffers idx) result = .data bytes)
      (whole : MarketTick.size ≤ bytes.length) (latencyNs : UInt64) :
      Handled ({ handler with
        pc := .publish done idx ((stampedTick bytes nowNs).bytes padding)
        wireLat := handler.wireLat.record latencyNs }, .stamped nowNs)

theorem handled (within : result ≤ bufSize) :
    Handled handler idx result done nowNs padding
      (handler.handleStep idx result done nowNs padding) := by
  unfold Handler.handleStep
  dsimp only
  by_cases negative : result < 0
  · rw [if_pos negative]
    exact .failed ⟨_, if_pos negative⟩
  · have found : delivered (handler.buffers idx) result =
        .data ((handler.buffers idx).toList.take result.toNat) := if_neg negative
    have length : ((handler.buffers idx).toList.take result.toNat).length = result.toNat := by
      simp only [List.length_take, Vector.length_toList]
      omega
    rw [if_neg negative]
    by_cases short : result.toNat < MarketTick.size
    · rw [if_pos short]
      exact .bad found (by rw [length]; exact short)
    · have whole : ¬ ((handler.buffers idx).toList.take result.toNat).length < MarketTick.size := by
        rw [length]
        exact short
      rw [if_neg short, parseTick, if_neg whole]
      exact .stamped found (Nat.le_of_not_lt whole) _

end Handling

section Invariants

variable {handler after : Handler} {action : HandlerAction} {events history : List HandlerEvent}

/-- Where the completions are. -/
structure Placed (handler : Handler) (history : List HandlerEvent) : Prop where
  order : handlings history <+: completions history
  /-- Each one has been handled or waits, with its bytes still in the buffer. -/
  places : handler.pc ≠ .returned →
    completions history = handlings history ++ handler.found
  busy : handler.busy.Nodup
  /-- The kernel writes to no buffer whose completion waits. -/
  apart : ∀ idx, handler.posted idx = true → idx ∉ handler.busy
  within : ∀ entry ∈ handler.waiting, entry.2 ≤ bufSize

/-- The kernel never reports more bytes than a buffer has, so `handled` applies in every round. -/
theorem Placed.handled {idx : Fin recvBatch} {result : Int} {done : Batch}
    (placed : Placed handler history) (at' : handler.pc = .handle ((idx, result) :: done))
    (nowNs : UInt64) (padding : Vector UInt8 4) :
    Handled handler idx result done nowNs padding
      (handler.handleStep idx result done nowNs padding) := by
  apply Feedhandler.handled
  apply placed.within (idx, result)
  simp [Handler.waiting, at', HandlerPc.batch]

/-- What a step may leave as it was. -/
structure SamePlaces (handler after : Handler) : Prop where
  waiting : after.waiting = handler.waiting
  busy : after.busy = handler.busy
  buffers : after.buffers = handler.buffers
  posted : after.posted = handler.posted

theorem Placed.frame (placed : Placed handler history) (same : SamePlaces handler after)
    (running : after.pc ≠ .returned → handler.pc ≠ .returned) (completed : completions events = [])
    (handled : handlings events = []) : Placed after (history ++ events) := by
  have quiet : completions (history ++ events) = completions history ∧
      handlings (history ++ events) = handlings history := by
    rw [completions_append, handlings_append, completed, handled]
    exact ⟨List.append_nil _, List.append_nil _⟩
  constructor
  case order =>
    rw [quiet.1, quiet.2]
    exact placed.order
  case places =>
    intro still
    rw [quiet.1, quiet.2, placed.places (running still), Handler.found, Handler.found, same.waiting,
      same.buffers]
  case busy => exact same.busy ▸ placed.busy
  case apart => exact fun idx posted => same.busy ▸ placed.apart idx (same.posted ▸ posted)
  case within => exact same.waiting ▸ placed.within

theorem Placed.lost {idx : Fin recvBatch} {done : Batch} (placed : Placed handler history)
    (at' : handler.pc = .submitRecv done idx) : Placed (handler.setPc .returned) history := by
  have waiting : (handler.setPc .returned).waiting <:+ handler.waiting := by
    simp [Handler.waiting, Handler.setPc, at', HandlerPc.batch]
  have busy : (handler.setPc .returned).busy <:+ handler.busy := by
    rw [Handler.busy, Handler.busy, at']
    exact (waiting.map _).trans (List.suffix_append _ _)
  constructor
  case order => exact placed.order
  case places => exact fun running => absurd rfl running
  case busy => exact placed.busy.sublist busy.sublist
  case apart => exact fun other posted member => placed.apart other posted (busy.subset member)
  case within => exact fun entry member => placed.within entry (waiting.subset member)

theorem waiting_handle {idx : Fin recvBatch} {result : Int} {done : Batch}
    (at' : handler.pc = .handle ((idx, result) :: done))
    (waiting : after.waiting = done ++ recvs handler.completions) :
    handler.waiting = (idx, result) :: after.waiting := by
  rw [waiting, Handler.waiting, at']
  rfl

theorem busy_handle {idx : Fin recvBatch} {result : Int} {done : Batch}
    (at' : handler.pc = .handle ((idx, result) :: done))
    (waiting : after.waiting = done ++ recvs handler.completions)
    (current : after.pc.current = [idx]) : after.busy = handler.busy := by
  rw [Handler.busy, Handler.busy, waiting_handle at' waiting, current, at']
  rfl

theorem Placed.handle {idx : Fin recvBatch} {result : Int} {done : Batch} {verdict : Verdict}
    (placed : Placed handler history) (at' : handler.pc = .handle ((idx, result) :: done))
    (waiting : after.waiting = done ++ recvs handler.completions)
    (current : after.pc.current = [idx]) (buffers : after.buffers = handler.buffers)
    (posted : after.posted = handler.posted) :
    Placed after
      (history ++ [.handled idx (delivered (handler.buffers idx) result) verdict]) := by
  have first := waiting_handle at' waiting
  have found : handler.found = (idx, delivered (handler.buffers idx) result) :: after.found := by
    rw [Handler.found, Handler.found, first, buffers]
    rfl
  have busy := busy_handle at' waiting current
  have places := placed.places (by rw [at']; nofun)
  -- the first of the completions that wait is now the last one handled
  have moved :
      completions (history ++ [.handled idx (delivered (handler.buffers idx) result) verdict]) =
        handlings (history ++ [.handled idx (delivered (handler.buffers idx) result) verdict]) ++
          after.found := by
    simpa [completions, handlings, found] using places
  constructor
  case order => exact ⟨_, moved.symm⟩
  case places => exact fun _ => moved
  case busy => exact busy ▸ placed.busy
  case apart => exact fun other is => busy ▸ placed.apart other (posted ▸ is)
  case within =>
    exact fun entry member => placed.within entry (first ▸ List.mem_cons_of_mem _ member)

/-- What the kernel does to the loop's state. -/
structure Completes (handler after : Handler) (idx : Fin recvBatch) (delivery : Delivery)
    (result : Int) : Prop where
  pc : after.pc = handler.pc
  waiting : after.waiting = handler.waiting ++ [(idx, result)]
  within : result ≤ bufSize
  posted : after.posted = Function.update handler.posted idx false
  here : delivered (after.buffers idx) result = delivery
  others : ∀ other, other ≠ idx → after.buffers other = handler.buffers other

theorem completes (handler : Handler) {idx : Fin recvBatch} {delivery : Delivery}
    (possible : delivery.possible = true) :
    ∃ result, Completes handler (handler.complete idx delivery) idx delivery result := by
  cases delivery with
  | data bytes =>
    have fits : bytes.length ≤ bufSize := of_decide_eq_true possible
    refine ⟨bytes.length, rfl, ?_, by exact_mod_cast fits, rfl, ?_, ?_⟩
    · simp [Handler.complete, Handler.waiting, recvs]
    · simp only [Handler.complete, Function.update_self]
      exact delivered_data _ fits
    · intro other different
      exact Function.update_of_ne different _ _
  | error errno =>
    have positive : 0 < errno := of_decide_eq_true possible
    refine ⟨-errno, rfl, ?_, by omega, rfl, delivered_error _ positive, fun _ _ => rfl⟩
    simp [Handler.complete, Handler.waiting, recvs]

/-- The kernel writes only to the buffer that it completes, and no entry waits for that one. -/
theorem Placed.complete {idx : Fin recvBatch} {delivery : Delivery}
    (placed : Placed handler history) (posted : handler.posted idx = true)
    (possible : delivery.possible = true) :
    Placed (handler.complete idx delivery) (history ++ [.completed idx delivery]) := by
  have free := placed.apart idx posted
  obtain ⟨result, pc, waiting, within, unposted, here, others⟩ := completes handler possible
  have busy : (handler.complete idx delivery).busy = handler.busy ++ [idx] := by
    rw [Handler.busy, Handler.busy, waiting, pc, List.map_append, List.append_assoc]
    rfl
  have found : (handler.complete idx delivery).found = handler.found ++ [(idx, delivery)] := by
    rw [Handler.found, Handler.found, waiting, List.map_append]
    congr 1
    · -- the kernel writes a posted buffer, and none of those that wait is posted
      apply List.map_congr_left
      intro entry member
      have different : entry.1 ≠ idx := by
        intro same
        exact free (same ▸ List.mem_append_right _ (List.mem_map_of_mem member))
      rw [others _ different]
    · rw [List.map_singleton, here]
  have quiet : handlings (history ++ [.completed idx delivery]) = handlings history := by
    simp [handlings]
  have appended : completions (history ++ [.completed idx delivery]) =
      completions history ++ [(idx, delivery)] := by
    simp [completions]
  constructor
  case order =>
    rw [quiet, appended]
    exact placed.order.trans (List.prefix_append _ _)
  case places =>
    intro running
    rw [quiet, appended, found, placed.places (pc ▸ running), List.append_assoc]
  case busy =>
    rw [busy, List.nodup_append]
    refine ⟨placed.busy, by simp, ?_⟩
    intro other member last is same
    rw [same, List.mem_singleton.mp is] at member
    exact free member
  case apart =>
    intro other is member
    rw [unposted] at is
    rw [busy, List.mem_append, List.mem_singleton] at member
    by_cases same : other = idx
    · rw [same, Function.update_self] at is
      contradiction
    · rw [Function.update_of_ne same] at is
      exact placed.apart other is (member.resolve_right same)
  case within =>
    intro entry member
    rw [waiting, List.mem_append, List.mem_singleton] at member
    rcases member with earlier | rfl
    · exact placed.within entry earlier
    · exact within

theorem Placed.repost {idx : Fin recvBatch} {done : Batch} (placed : Placed handler history)
    (at' : handler.pc = .submitRecv done idx) :
    Placed { handler with
      pc := .handle done
      posted := Function.update handler.posted idx true } history := by
  let after : Handler := { handler with
    pc := .handle done
    posted := Function.update handler.posted idx true }
  have waiting : after.waiting = handler.waiting := by
    rw [Handler.waiting, Handler.waiting, at']
    rfl
  have busy : handler.busy = idx :: after.busy := by
    rw [Handler.busy, Handler.busy, waiting, at']
    rfl
  -- the buffer in hand appears once, so it is free from here on
  have distinct := placed.busy
  rw [busy, List.nodup_cons] at distinct
  constructor
  case order => exact placed.order
  case places =>
    intro _
    rw [placed.places (by rw [at']; nofun), Handler.found, Handler.found, waiting]
  case busy => exact distinct.2
  case apart =>
    intro other is
    by_cases same : other = idx
    · exact same ▸ distinct.1
    · dsimp only at is
      rw [Function.update_of_ne same] at is
      exact fun member => placed.apart other is (busy ▸ List.mem_cons_of_mem _ member)
  case within => exact waiting ▸ placed.within

/-- What a step makes of the places of entries and buffers. -/
inductive PlacesStepped (handler : Handler) : Handler → List HandlerEvent → Prop where
  | same {after : Handler} {events : List HandlerEvent} (same : SamePlaces handler after)
      (running : after.pc ≠ .returned → handler.pc ≠ .returned) (completed : completions events = [])
      (handled : handlings events = []) : PlacesStepped handler after events
  | lost {idx : Fin recvBatch} {done : Batch} (at' : handler.pc = .submitRecv done idx) :
      PlacesStepped handler (handler.setPc .returned) []
  | handle {after : Handler} {idx : Fin recvBatch} {result : Int} {done : Batch} {verdict : Verdict}
      (at' : handler.pc = .handle ((idx, result) :: done))
      (waiting : after.waiting = done ++ recvs handler.completions)
      (current : after.pc.current = [idx]) (buffers : after.buffers = handler.buffers)
      (posted : after.posted = handler.posted) :
      PlacesStepped handler after [.handled idx (delivered (handler.buffers idx) result) verdict]
  | repost {idx : Fin recvBatch} {done : Batch} (at' : handler.pc = .submitRecv done idx) :
      PlacesStepped handler { handler with
        pc := .handle done
        posted := Function.update handler.posted idx true } []
  | complete {idx : Fin recvBatch} {delivery : Delivery} (posted : handler.posted idx = true)
      (possible : delivery.possible = true) :
      PlacesStepped handler (handler.complete idx delivery) [.completed idx delivery]

theorem SamePlaces.of_waiting (waiting : after.waiting = handler.waiting)
    (current : after.pc.current = handler.pc.current) (buffers : after.buffers = handler.buffers)
    (posted : after.posted = handler.posted) : SamePlaces handler after where
  waiting := waiting
  busy := by rw [Handler.busy, Handler.busy, waiting, current]
  buffers := buffers
  posted := posted

theorem HandlerMove.places {pc : HandlerPc} (move : HandlerMove handler pc) :
    PlacesStepped handler (handler.setPc pc) [] := by
  cases move with
  | submitFailed at' => exact .lost at'
  | leave at' | enter at' | woken at' | interrupted at' | waitFailed at' | finished at'
  | drained at' =>
    apply PlacesStepped.same
    case same =>
      apply SamePlaces.of_waiting
      case waiting =>
        rw [Handler.waiting, Handler.waiting, at']
        rfl
      case current => rw [at']; rfl
      case buffers => rfl
      case posted => rfl
    case running =>
      intro _ gone
      rw [at'] at gone
      contradiction
    case completed => rfl
    case handled => rfl

theorem HandlerStepped.places (placed : Placed handler history)
    (stepped : HandlerStepped handler action after events) : PlacesStepped handler after events := by
  cases stepped with
  | move move => exact move.places
  | repost at' => exact .repost at'
  | complete posted possible => exact .complete posted possible
  | @handle idx result done nowNs padding at' =>
    have outcome := placed.handled at' nowNs padding
    -- whatever the outcome, the completion leaves the batch for the hand
    generalize handler.handleStep idx result done nowNs padding = made at outcome ⊢
    cases outcome <;> exact .handle at' rfl rfl rfl rfl
  | timeout =>
    refine .same (.of_waiting ?_ rfl rfl rfl) id rfl rfl
    simp [Handler.waiting, recvs]
  | arm at' | order at' | published at' | collect at' =>
    apply PlacesStepped.same
    case same =>
      apply SamePlaces.of_waiting <;>
        simp [Handler.waiting, HandlerPc.batch, HandlerPc.current, Handler.setPc, recvs, at']
    case running =>
      intro _ gone
      rw [at'] at gone
      contradiction
    case completed => rfl
    case handled => rfl

theorem Placed.step (placed : Placed handler history)
    (stepped : HandlerStepped handler action after events) : Placed after (history ++ events) := by
  cases stepped.places placed with
  | same same running completed handled => exact placed.frame same running completed handled
  | lost at' =>
    rw [List.append_nil]
    exact placed.lost at'
  | handle at' waiting current buffers posted =>
    exact placed.handle at' waiting current buffers posted
  | repost at' =>
    rw [List.append_nil]
    exact placed.repost at'
  | complete posted possible => exact placed.complete posted possible

/-- The counters against the history. -/
structure Tallied (handler : Handler) (history : List HandlerEvent) : Prop where
  received : handler.recvCount + handler.publishDrops + handler.badPackets +
    handler.pc.publishing = .ofNat (datagrams history).length
  measured : handler.wireLat.count =
    handler.recvCount + handler.publishDrops + handler.pc.publishing
  published : handler.recvCount = .ofNat (history.count (.published true))
  dropped : handler.publishDrops = .ofNat (history.count (.published false))

theorem HandlerMove.publishing {pc : HandlerPc} (move : HandlerMove handler pc) :
    pc.publishing = handler.pc.publishing := by
  cases move with
  | leave at' | enter at' | woken at' | interrupted at' | waitFailed at' | finished at'
  | submitFailed at' | drained at' =>
    rw [at']
    rfl

theorem Tallied.frame (tallied : Tallied handler history)
    (counters : after.recvCount = handler.recvCount ∧ after.publishDrops = handler.publishDrops ∧
      after.badPackets = handler.badPackets ∧ after.wireLat = handler.wireLat)
    (publishing : after.pc.publishing = handler.pc.publishing) (quiet : datagrams events = [])
    (silent : ∀ accepted, events.count (.published accepted) = 0) :
    Tallied after (history ++ events) := by
  obtain ⟨received, measured, published, dropped⟩ := tallied
  obtain ⟨recvs, drops, bad, wire⟩ := counters
  constructor
  case received => simpa [recvs, drops, bad, publishing, quiet] using received
  case measured => rw [wire, recvs, drops, publishing, measured]
  case published => rw [recvs, List.count_append, silent, Nat.add_zero, published]
  case dropped => rw [drops, List.count_append, silent, Nat.add_zero, dropped]

theorem Tallied.datagram {idx : Fin recvBatch} {bytes : List UInt8} {verdict : Verdict}
    (tallied : Tallied handler history) (outside : handler.pc.publishing = 0)
    (kept : after.recvCount = handler.recvCount ∧ after.publishDrops = handler.publishDrops)
    (taken : after.badPackets + after.pc.publishing = handler.badPackets + 1)
    (measures : after.wireLat.count = handler.wireLat.count + after.pc.publishing) :
    Tallied after (history ++ [.handled idx (.data bytes) verdict]) := by
  obtain ⟨received, measured, published, dropped⟩ := tallied
  have more : datagrams (history ++ [.handled idx (.data bytes) verdict]) =
      datagrams history ++ [bytes] := by
    simp [datagrams]
  rw [outside] at received measured
  constructor
  case received =>
    rw [more, List.length_append, UInt64.ofNat_add, ← received, kept.1, kept.2, UInt64.add_assoc,
      taken]
    simp only [List.length_singleton]
    grind
  case measured => rw [measures, measured, kept.1, kept.2, UInt64.add_zero]
  case published => simp [kept.1, published]
  case dropped => simp [kept.2, dropped]

theorem Tallied.step (tallied : Tallied handler history) (placed : Placed handler history)
    (stepped : HandlerStepped handler action after events) :
    Tallied after (history ++ events) := by
  cases stepped with
  | move move => exact tallied.frame ⟨rfl, rfl, rfl, rfl⟩ move.publishing rfl fun _ => rfl
  | arm at' | collect at' | repost at' =>
    exact tallied.frame ⟨rfl, rfl, rfl, rfl⟩ (by rw [at']; rfl) rfl fun _ => rfl
  | order | timeout => exact tallied.frame ⟨rfl, rfl, rfl, rfl⟩ rfl rfl fun _ => rfl
  | @complete idx delivery =>
    refine tallied.frame ?_ ?_ rfl fun _ => rfl
    · cases delivery <;> exact ⟨rfl, rfl, rfl, rfl⟩
    · cases delivery <;> rfl
  | @published done idx bytes accepted at' =>
    obtain ⟨received, measured, published, dropped⟩ := tallied
    rw [at'] at received measured
    simp only [HandlerPc.publishing] at received measured
    have same : datagrams (history ++ [.published accepted]) = datagrams history := by
      simp [datagrams]
    -- one counter takes over the tick that was on its way
    constructor
    case received =>
      rw [same, ← received]
      cases accepted <;> simp only [Handler.counted, Handler.setPc, HandlerPc.publishing] <;> grind
    case measured =>
      simp only [Handler.setPc, HandlerPc.publishing]
      cases accepted <;> simp only [Handler.counted] <;> grind
    case published => cases accepted <;> simp [Handler.counted, Handler.setPc, published]
    case dropped => cases accepted <;> simp [Handler.counted, Handler.setPc, dropped]
  | @handle idx result done nowNs padding at' =>
    have outcome := placed.handled at' nowNs padding
    generalize handler.handleStep idx result done nowNs padding = made at outcome ⊢
    cases outcome with
    | failed found =>
      obtain ⟨errno, found⟩ := found
      rw [found]
      exact tallied.frame ⟨rfl, rfl, rfl, rfl⟩ (by rw [at']; rfl) rfl fun _ => rfl
    | @bad bytes found short =>
      rw [found]
      apply tallied.datagram
      case outside => rw [at']; rfl
      case kept => exact ⟨rfl, rfl⟩
      case taken => exact UInt64.add_zero _
      case measures => exact (UInt64.add_zero _).symm
    | @stamped bytes found whole latencyNs =>
      rw [found]
      apply tallied.datagram
      case outside => rw [at']; rfl
      case kept => exact ⟨rfl, rfl⟩
      case taken => rfl
      case measures => exact LatencyHistogram.record_count ..

/-- The tick in `try_publish` is the last one decoded. -/
structure Sending (handler : Handler) (history : List HandlerEvent) : Prop where
  last : ∀ done idx bytes, handler.pc = .publish done idx bytes →
    ∃ earlier data recvTsNs padding, undropped history = earlier ++ [(data, recvTsNs)] ∧
      bytes = (stampedTick data recvTsNs).bytes padding
  whole : ∀ tick ∈ undropped history, MarketTick.size ≤ tick.1.length
  verdicts : ∀ idx delivery verdict, .handled idx delivery verdict ∈ history →
    verdict.Fits delivery

theorem Sending.frame (sending : Sending handler history)
    (last : ∀ done idx bytes, after.pc = .publish done idx bytes →
      handler.pc = .publish done idx bytes)
    (same : undropped (history ++ events) = undropped history)
    (fits : ∀ idx delivery verdict, .handled idx delivery verdict ∈ events →
      verdict.Fits delivery) : Sending after (history ++ events) where
  last done idx bytes at' := same ▸ sending.last done idx bytes (last done idx bytes at')
  whole := same ▸ sending.whole
  verdicts idx delivery verdict member :=
    (List.mem_append.mp member).elim (sending.verdicts idx delivery verdict) (fits idx delivery verdict)

theorem Sending.step (sending : Sending handler history) (placed : Placed handler history)
    (stepped : HandlerStepped handler action after events) :
    Sending after (history ++ events) := by
  cases stepped with
  | move move =>
    refine sending.frame ?_ (by rw [List.append_nil]) nofun
    intro done idx bytes is
    cases move <;> contradiction
  | arm | collect | repost => exact sending.frame nofun (by rw [List.append_nil]) nofun
  | order | timeout => exact sending.frame (fun _ _ _ => id) (by rw [List.append_nil]) nofun
  | @complete idx delivery =>
    refine sending.frame ?_ (by simp [undropped]) (by simp)
    intro done other bytes is
    cases delivery <;> exact is
  | @published done idx bytes accepted at' =>
    cases accepted with
    | true => exact sending.frame nofun (by simp [undropped]) (by simp)
    | false =>
      constructor
      case last => exact nofun
      case whole =>
        intro tick member
        rw [undropped_refused] at member
        exact sending.whole tick (List.dropLast_subset _ member)
      case verdicts =>
        intro other delivery verdict member
        exact sending.verdicts other delivery verdict (by simpa using member)
  | @handle idx result done nowNs padding at' =>
    have outcome := placed.handled at' nowNs padding
    generalize handler.handleStep idx result done nowNs padding = made at outcome ⊢
    cases outcome with
    | failed found =>
      obtain ⟨errno, found⟩ := found
      rw [found]
      refine sending.frame nofun (by simp [undropped]) ?_
      intro other delivery verdict member
      cases List.mem_singleton.mp member
      trivial
    | bad found short =>
      rw [found]
      refine sending.frame nofun (by simp [undropped]) ?_
      intro other delivery verdict member
      cases List.mem_singleton.mp member
      exact short
    | @stamped bytes found whole latencyNs =>
      -- the datagram becomes the last tick that has not been refused
      rw [found]
      constructor
      case last =>
        intro _ _ _ is
        cases is
        exact ⟨_, bytes, nowNs, padding, undropped_stamped .., rfl⟩
      case whole =>
        intro tick member
        rw [undropped_stamped, List.mem_append, List.mem_singleton] at member
        rcases member with earlier | rfl
        · exact sending.whole tick earlier
        · exact whole
      case verdicts =>
        intro other delivery verdict member
        rcases List.mem_append.mp member with earlier | last
        · exact sending.verdicts other delivery verdict earlier
        · cases List.mem_singleton.mp last
          exact whole

/-- Everything that is known of the loop and of its history. -/
structure Known (handler : Handler) (history : List HandlerEvent) : Prop where
  placed : Placed handler history
  tallied : Tallied handler history
  sending : Sending handler history

theorem known (reach : feedhandler.Reachable handler history) : Known handler history := by
  induction reach with
  | start =>
    constructor
    case placed =>
      exact ⟨List.prefix_refl _, fun _ => rfl, List.nodup_nil, fun _ _ => by nofun, nofun⟩
    case tallied => exact ⟨rfl, rfl, rfl, rfl⟩
    case sending => exact ⟨nofun, nofun, nofun⟩
  | next _ _ step ih =>
    have stepped := handlerStep_inv step
    exact ⟨ih.placed.step stepped, ih.tallied.step ih.placed stepped,
      ih.sending.step ih.placed stepped⟩

end Invariants

end TradingPipeline.Feedhandler
