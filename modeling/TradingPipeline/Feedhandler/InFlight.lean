import Mathlib.Data.Fintype.Card
import TradingPipeline.Feedhandler.Completions

/-! The io_uring operations in flight.

Every buffer is posted or has one completion to be dealt with, so the `Recv`s take no more
room than they are. A timeout is armed each time round, whether or not the last one has
expired, so only the arming decides how many of them there are.
-/

set_option autoImplicit false

namespace TradingPipeline.Feedhandler

open Foundation

namespace Handler

/-- The buffers that are posted. -/
def recvsPosted (handler : Handler) : Finset (Fin recvBatch) :=
  Finset.univ.filter fun idx => handler.posted idx = true

/-- The operations that the kernel has not completed. -/
def inFlight (handler : Handler) : Nat := handler.recvsPosted.card + handler.timeouts

/-- The timeouts that the loop has not collected. -/
def armed (handler : Handler) : Nat := handler.timeouts + handler.completions.count .timeout

end Handler

/-- One timeout next to the posted `Recv`s, and a place in the completion queue for all of
them besides what already lies there. -/
structure Bounded (handler : Handler) : Prop where
  timeouts : handler.timeouts ≤ 1
  inFlight : handler.inFlight ≤ recvBatch + 1
  room : handler.completions.length + handler.inFlight ≤ recvBatch + 1

/-- The loop arms a timeout only after it has collected all earlier ones. -/
def ArmsAlone (handler : Handler) (action : HandlerAction) : Prop :=
  action = .armTimeout true → handler.timeouts = 0 ∧ .timeout ∉ handler.completions

instance (handler : Handler) (action : HandlerAction) : Decidable (ArmsAlone handler action) :=
  inferInstanceAs (Decidable (action = .armTimeout true →
    handler.timeouts = 0 ∧ .timeout ∉ handler.completions))

section Queue

variable {handler after : Handler} {action : HandlerAction} {events history : List HandlerEvent}

theorem length_completions (completions : List Completion) :
    completions.length = (recvs completions).length + completions.count .timeout := by
  induction completions with
  | nil => rfl
  | cons completion rest ih =>
    cases completion with
    | timeout =>
      simp only [recvs, List.length_cons, List.filterMap_cons, List.count_cons_self] at ih ⊢
      omega
    | recv idx result =>
      have other : (Completion.recv idx result) ≠ .timeout := by simp
      simp only [recvs, List.length_cons, List.filterMap_cons, List.count_cons_of_ne other] at ih ⊢
      omega

/-- No buffer is posted while its completion waits, and each is one or the other as long as
the loop runs. -/
theorem posted_add_busy (placed : Placed handler history) :
    handler.recvsPosted.card + handler.busy.length ≤ recvBatch ∧
      ((∀ idx, handler.posted idx = true ∨ idx ∈ handler.busy) →
        handler.recvsPosted.card + handler.busy.length = recvBatch) := by
  have length : handler.busy.toFinset.card = handler.busy.length :=
    List.toFinset_card_of_nodup placed.busy
  have disjoint : Disjoint handler.recvsPosted handler.busy.toFinset := by
    rw [Finset.disjoint_left]
    intro idx posted waits
    simp only [Handler.recvsPosted, Finset.mem_filter, Finset.mem_univ, true_and] at posted
    exact placed.apart idx posted (List.mem_toFinset.mp waits)
  rw [← length, ← Finset.card_union_of_disjoint disjoint]
  constructor
  · exact (Finset.card_le_univ _).trans_eq (Fintype.card_fin recvBatch)
  · intro covered
    -- two disjoint sets that make up all buffers
    have all : handler.recvsPosted ∪ handler.busy.toFinset = Finset.univ := by
      ext idx
      simpa [Handler.recvsPosted] using covered idx
    rw [all, Finset.card_univ, Fintype.card_fin]

/-- As long as the loop runs, no buffer is forgotten. -/
def Covered (handler : Handler) : Prop :=
  handler.pc ≠ .returned → ∀ idx, handler.posted idx = true ∨ idx ∈ handler.busy

theorem Covered.step (covered : Covered handler) (stepped : PlacesStepped handler after events) :
    Covered after := by
  intro running other
  cases stepped with
  | same same still =>
    rw [same.busy, same.posted]
    exact covered (still running) other
  | lost => exact absurd rfl running
  | handle at' waiting current _ posted =>
    rw [busy_handle at' waiting current, posted]
    exact covered (by rw [at']; simp) other
  | @repost idx done at' =>
    dsimp only
    by_cases same : other = idx
    · exact .inl (by rw [same, Function.update_self])
    · rcases covered (by rw [at']; simp) other with posted | busy
      · exact .inl (by rw [Function.update_of_ne same, posted])
      · refine .inr ?_
        simpa [Handler.busy, Handler.waiting, HandlerPc.batch, HandlerPc.current, at', same]
          using busy
  | @complete idx delivery posted possible =>
    -- the buffer that is no longer posted waits at the end of the queue
    obtain ⟨result, pc, waiting, _, unposted, _, _⟩ := completes handler possible
    rw [Handler.busy, waiting, pc, unposted, List.map_append, ← List.append_assoc]
    by_cases same : other = idx
    · exact .inr (by simp [same])
    · rw [Function.update_of_ne same]
      exact (covered (pc ▸ running) other).imp_right (List.mem_append_left _)

theorem covered_of_reachable (reach : feedhandler.Reachable handler history) : Covered handler := by
  induction reach with
  | start => exact fun _ _ => .inl rfl
  | next reach _ step ih => exact ih.step ((handlerStep_inv step).places (known reach).placed)

theorem busy_eq (batch : handler.pc.batch = []) (current : handler.pc.current = []) :
    handler.busy.length = (recvs handler.completions).length := by
  rw [Handler.busy, Handler.waiting, batch, current, List.nil_append, List.nil_append,
    List.length_map]

theorem room_le (placed : Placed handler history) (batch : handler.pc.batch = [])
    (current : handler.pc.current = []) :
    handler.completions.length + handler.inFlight ≤ recvBatch + handler.armed := by
  have apart := (posted_add_busy placed).1
  rw [busy_eq batch current] at apart
  have length := length_completions handler.completions
  unfold Handler.inFlight Handler.armed
  omega

end Queue

section Timeouts

variable {handler after : Handler} {action : HandlerAction} {events history : List HandlerEvent}

theorem handleStep_armed (handler : Handler) (idx : Fin recvBatch) (result : Int) (done : Batch)
    (nowNs : UInt64) (padding : Vector UInt8 4) :
    (handler.handleStep idx result done nowNs padding).1.armed = handler.armed := by
  unfold Handler.handleStep
  dsimp only
  split
  · rfl
  · split
    · rfl
    · split <;> rfl

theorem armed_step (stepped : HandlerStepped handler action after events) :
    after.armed ≤ handler.armed + (if action = .armTimeout true then 1 else 0) := by
  cases stepped with
  | move => exact Nat.le_add_right _ _
  | @arm pushed at' =>
    cases pushed with
    | true => exact Nat.le_of_eq (Nat.add_right_comm _ _ _)
    | false => exact Nat.le_add_right _ _
  | collect at' =>
    simp only [Handler.armed, List.count_nil]
    omega
  | repost | order => exact Nat.le_add_right _ _
  | @published done idx bytes accepted at' =>
    cases accepted <;> exact Nat.le_add_right _ _
  | @handle idx result done nowNs padding at' =>
    rw [handleStep_armed]
    exact Nat.le_add_right _ _
  | @complete idx delivery =>
    cases delivery <;> simp [Handler.armed, Handler.complete]
  | timeout outstanding =>
    simp only [Handler.armed, List.count_append, List.count_singleton_self]
    omega

theorem armed_le_one (reach : feedhandler.Reach ArmsAlone handler history) : handler.armed ≤ 1 := by
  induction reach with
  | start => exact Nat.zero_le _
  | @next state after history events action reach alone step ih =>
    have grows := armed_step (handlerStep_inv step)
    by_cases arms : action = .armTimeout true
    · obtain ⟨none', empty⟩ := alone arms
      -- an arming finds none left
      have nothing : state.armed = 0 := by
        rw [Handler.armed, none', List.count_eq_zero.mpr empty]
      rw [if_pos arms, nothing] at grows
      exact grows
    · rw [if_neg arms] at grows
      exact grows.trans ih

/-- At most one timeout is in flight, and the completion queue has room for all operations, in
every run that arms a timeout only when no earlier one is left. A timeout armed beside another
breaks the bound at once. -/
theorem in_flight_bounded (handler : Handler) (history : List HandlerEvent) :
    (feedhandler.Reach ArmsAlone handler history → handler.pc = .submitAndWait →
      Bounded handler) ∧
    ∀ {after events}, feedhandler.Reachable handler history →
      feedhandler.step handler (.armTimeout true) = some (after, events) →
        (Bounded after ↔ ArmsAlone handler (.armTimeout true)) := by
  constructor
  · intro reach at'
    have placed := (known reach.reachable).placed
    have room := room_le placed (by rw [at']; rfl) (by rw [at']; rfl)
    have armed := armed_le_one reach
    constructor
    case timeouts => exact (Nat.le_add_right _ _).trans armed
    case inFlight => omega
    case room => omega
  · intro after events reach step
    have placed := (known reach).placed
    have step : handlerStep handler (.armTimeout true) = some (after, events) := step
    simp only [handlerStep, Option.ite_none_right_eq_some] at step
    obtain ⟨at', made⟩ := step
    cases made
    -- every buffer is posted or lies in the queue, so all room beyond them is for timeouts
    have covered := covered_of_reachable reach (by rw [at']; simp)
    have full := (posted_add_busy placed).2 covered
    rw [busy_eq (by rw [at']; rfl) (by rw [at']; rfl)] at full
    have length := length_completions handler.completions
    constructor
    · rintro ⟨timeouts, _, room⟩ _
      simp only [Handler.inFlight, Handler.recvsPosted, if_true] at timeouts room full
      exact ⟨by omega, List.count_eq_zero.mp (by omega)⟩
    · intro alone
      obtain ⟨none', empty⟩ := alone rfl
      have collected := List.count_eq_zero.mpr empty
      simp only [Handler.recvsPosted] at full
      constructor <;> simp only [Handler.inFlight, Handler.recvsPosted, if_true] <;> omega

/-- The timeout of the first round expires and is collected before the second round. -/
theorem in_flight_bounded_round : ∃ handler history,
    feedhandler.Reach ArmsAlone handler history ∧ handler.pc = .submitAndWait ∧
      handler.timeouts = 1 ∧ Bounded handler := by
  obtain ⟨handler, history, reach, checked⟩ := System.exists_reach_of_run feedhandler ArmsAlone
    [.loopHead false, .armTimeout true, .timeoutCompletes, .submitAndWait .ok, .completionQueue,
      .handle 0 (.replicate 4 0), .tryConsumeOrder false, .loopHead false, .armTimeout true]
    (fun final => final.1.pc = .submitAndWait ∧ final.1.timeouts = 1) (by decide) (by decide)
  obtain ⟨at', timeouts⟩ := of_decide_eq_true checked
  exact ⟨handler, history, reach, at', timeouts, (in_flight_bounded handler history).1 reach at'⟩

/-- A packet wakes the loop before the timeout of its round expires, and the loop arms the next
one beside it. -/
theorem timeouts_overlap : ¬ ∀ (handler : Handler) (history : List HandlerEvent),
    feedhandler.Reachable handler history → handler.pc = .submitAndWait → Bounded handler := by
  intro bounded
  obtain ⟨handler, history, reach, checked⟩ := System.exists_reach_of_run feedhandler
    (fun _ _ => True)
    [.loopHead false, .armTimeout true, .recvCompletes 0 (.data []), .submitAndWait .ok,
      .completionQueue, .handle 0 (.replicate 4 0), .submitRecv true, .handle 0 (.replicate 4 0),
      .tryConsumeOrder false, .loopHead false, .armTimeout true]
    (fun final => final.1.pc = .submitAndWait ∧ final.1.timeouts = 2)
    (System.allowedAlong_true _ _ _) (by decide)
  obtain ⟨at', timeouts⟩ : handler.pc = .submitAndWait ∧ handler.timeouts = 2 :=
    of_decide_eq_true checked
  have bound := (bounded handler history reach at').timeouts
  omega

end Timeouts

end TradingPipeline.Feedhandler
