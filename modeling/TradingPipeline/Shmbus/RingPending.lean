import TradingPipeline.Shmbus.Latency
import TradingPipeline.Shmbus.RingLinearization

/-! What `pending` tells a consumer between its calls.

The stored head follows one step behind the newest message, so the estimate may be one short,
and the consumer may be one ahead of the stored head. The difference saturates and does not wrap,
so the estimate is lost while head and consumer are on different sides of a multiple of 2^64.
-/

set_option autoImplicit false

namespace TradingPipeline.Shmbus

open Foundation Foundation.BoundedFifo

/-- `RingConsumer::pending`. -/
def RingConsumer.pending (ring : SpscRing) (consumer : RingConsumer) : UInt64 :=
  saturatingSub ring.head consumer.nextSeq

/-- The number of unread messages, or one less where there are any. -/
structure Estimates (estimate unread : Nat) : Prop where
  close : estimate = unread ∨ 0 < unread ∧ estimate + 1 = unread
  bounded : estimate ≤ ringCapacity

theorem saturatingSub_toNat (later earlier : UInt64) :
    (saturatingSub later earlier).toNat = later.toNat - earlier.toNat := by
  unfold saturatingSub
  split
  · next less =>
    have less := UInt64.lt_iff_toNat_lt.mp less
    exact (Nat.sub_eq_zero_of_le (Nat.le_of_lt less)).symm
  · next le => exact UInt64.toNat_sub_of_le _ _ (UInt64.not_lt.mp le)

/-- What the saturating difference says about two counts that are close to each other. -/
theorem estimates_iff {published consumed counted : Nat} (ahead : consumed ≤ published)
    (room : published - consumed ≤ ringCapacity)
    (counts : counted = published ∨ counted + 1 = published) :
    Estimates (saturatingSub (.ofNat counted) (.ofNat consumed)).toNat (published - consumed) ↔
      counted / 2 ^ 64 = consumed / 2 ^ 64 ∨ published = consumed + 1 ∧ counted = published := by
  rw [saturatingSub_toNat, UInt64.toNat_ofNat', UInt64.toNat_ofNat']
  simp only [ringCapacity] at room
  constructor
  · rintro ⟨close, bounded⟩
    simp only [ringCapacity] at bounded
    omega
  · intro near
    constructor
    case close => omega
    case bounded =>
      simp only [ringCapacity]
      omega

/-- The number of messages that the stored head counts: the newest one not before its head store. -/
def RingState.counted (state : RingState) (history : List RingEvent) : Nat :=
  let published := (RingEvent.publishedPayloads history).length
  match state.producer with
  | some ⟨_, .storeHead⟩ => published - 1
  | _ => published

section Counts

variable {memory : SpscRing} {state : RingState} {queue : Queue Payload}
  {history : List RingEvent}

/-- The counts behind the stored head and the consumer's cursor. -/
structure Counts (state : RingState) (history : List RingEvent) (published consumed : Nat) :
    Prop where
  ahead : consumed ≤ published
  room : published - consumed ≤ ringCapacity
  nextSeq : ∀ consumer ∈ state.consumer, consumer.nextSeq = .ofNat consumed
  head : state.ring.head = .ofNat (state.counted history)
  counted : state.counted history = published ∨ state.counted history + 1 = published

theorem Linked.head_counted (linked : Linked state queue)
    (entered : queue.entered = (RingEvent.publishedPayloads history).length)
    (positive : queue.writer = .stored → 0 < queue.entered) :
    state.ring.head = .ofNat (state.counted history) ∧
      (state.counted history = queue.entered ∨ state.counted history + 1 = queue.entered) := by
  obtain ⟨ring, producer, consumer⟩ := state
  have side := linked.producer
  cases producer with
  | none =>
    rw [RingState.counted, ← entered]
    exact ⟨side.2, .inl rfl⟩
  | some producer =>
    obtain ⟨nextSeq, pc⟩ := producer
    obtain ⟨_, at'⟩ := side
    cases pc with
    | idle | loadTail =>
      rw [RingState.counted, ← entered]
      exact ⟨at'.2, .inl rfl⟩
    | copy | storeSeq =>
      rw [RingState.counted, ← entered]
      exact ⟨at'.2.1, .inl rfl⟩
    | storeHead =>
      -- the message that the head does not count yet is there
      rw [RingState.counted, ← entered]
      obtain ⟨before, is⟩ := Nat.exists_eq_succ_of_ne_zero (positive at'.1).ne'
      have head := at'.2
      rw [is, ← Cursor.ofNat_succ] at head
      rw [is]
      exact ⟨(UInt64.add_left_inj 1).mp head, .inr rfl⟩

theorem queue_of_reach (reach : (spsc memory).Reach SafeCrash state history) :
    ∃ queue, Linked state queue ∧
      queue.taken = (RingEvent.consumedPayloads history).length ∧
      queue.entered = (RingEvent.publishedPayloads history).length ∧
      (queue.writer = .stored → 0 < queue.entered) := by
  obtain ⟨queue, accepted, linked, -, -⟩ := ring_refines reach
  have entered := entered_eq accepted
  have taken := (puts_eq accepted).2
  rw [puts_asQueue] at entered
  rw [takes_asQueue] at taken
  exact ⟨queue, linked, taken, entered, entered_pos_of_stored accepted⟩

theorem counts_of_reach (reach : (spsc memory).Reach SafeCrash state history) :
    Counts state history (RingEvent.publishedPayloads history).length
      (RingEvent.consumedPayloads history).length := by
  obtain ⟨queue, linked, taken, entered, positive⟩ := queue_of_reach reach
  have ⟨head, counted⟩ := linked.head_counted entered positive
  rw [← entered, ← taken]
  constructor
  case ahead => exact Nat.le_add_right _ _
  case room =>
    rw [Queue.entered, Nat.add_sub_cancel_left]
    exact linked.stored.room
  case nextSeq =>
    intro consumer attached
    have side := linked.consumer
    rw [attached] at side
    exact side.1
  case head => exact head
  case counted => exact counted

/-- What `pending` is worth to a consumer. -/
structure PendingSound (ring : SpscRing) (consumer : RingConsumer)
    (published consumed counted : Nat) : Prop where
  /-- The messages that are published and not yet consumed. -/
  ahead : consumed ≤ published
  nextSeq : consumer.nextSeq = .ofNat consumed
  head : ring.head = .ofNat counted
  /-- The stored head and the consumer have gone round equally often, or one message is unread and
  the head counts it. -/
  sound_iff : Estimates (consumer.pending ring).toNat (published - consumed) ↔
    counted / 2 ^ 64 = consumed / 2 ^ 64 ∨ published = consumed + 1 ∧ counted = published
  early : published < 2 ^ 64 → Estimates (consumer.pending ring).toNat (published - consumed)

theorem pending_sound {consumer : RingConsumer} (reach : (spsc memory).Reach NoCrash state history)
    (attached : state.consumer = some consumer) :
    PendingSound state.ring consumer (RingEvent.publishedPayloads history).length
      (RingEvent.consumedPayloads history).length (state.counted history) := by
  have counts := counts_of_reach (reach.mono fun _ _ => NoCrash.safe)
  have nextSeq := counts.nextSeq consumer attached
  have sound_iff := estimates_iff counts.ahead counts.room counts.counted
  rw [← counts.head, ← nextSeq] at sound_iff
  constructor
  case ahead => exact counts.ahead
  case nextSeq => exact nextSeq
  case head => exact counts.head
  case sound_iff => exact sound_iff
  case early =>
    intro early
    have ahead := counts.ahead
    have counted := counts.counted
    apply sound_iff.mpr
    left
    rw [Nat.div_eq_of_lt (by omega), Nat.div_eq_of_lt (by omega)]

/-- The consumer is ahead of the stored head. -/
theorem pending_sound_ahead : ∃ ring consumer, PendingSound ring consumer 1 1 0 := by
  obtain ⟨state, history, reach, checked⟩ := System.exists_reach_of_run (spsc .zeroed) NoCrash
    ((publishCall [7]).dropLast ++ consumeCall (zeroPad []))
    (fun reached => reached.1.consumer.isSome ∧
      (RingEvent.publishedPayloads reached.2).length = 1 ∧
      (RingEvent.consumedPayloads reached.2).length = 1 ∧ reached.1.counted reached.2 = 0)
    (by decide +kernel) (by decide +kernel)
  obtain ⟨attached, published, consumed, counted⟩ := of_decide_eq_true checked
  obtain ⟨consumer, attached⟩ := Option.isSome_iff_exists.mp attached
  have sound := pending_sound reach attached
  dsimp only at published consumed counted
  rw [published, consumed, counted] at sound
  exact ⟨state.ring, consumer, sound⟩

end Counts

section Rounds

variable {memory : SpscRing} {published consumed : Nat} {bytes : List UInt8} {out : Payload}

/-- A state with these program counters is reached after so many messages. -/
def Meets (memory : SpscRing) (writer : PublishPc) (reader : ConsumePc)
    (published consumed : Nat) : Prop :=
  ∃ ring head next history,
    (spsc memory).Reach NoCrash ⟨ring, some ⟨head, writer⟩, some ⟨next, reader⟩⟩ history ∧
      (RingEvent.publishedPayloads history).length = published ∧
      (RingEvent.consumedPayloads history).length = consumed

variable {writer writing : PublishPc} {reader reading : ConsumePc}

theorem Meets.start : Meets memory .idle .idle 0 0 := ⟨_, _, _, [], .start, rfl, rfl⟩

theorem Meets.after {ring written : SpscRing} {head ahead next behind : UInt64}
    {history events : List RingEvent}
    (reach : (spsc memory).Reach NoCrash
      ⟨ring, some ⟨head, writer⟩, some ⟨next, reader⟩⟩ history)
    (puts : (RingEvent.publishedPayloads history).length = published)
    (takes : (RingEvent.consumedPayloads history).length = consumed)
    (action : RingAction) (stays : action ≠ .producerCrash ∧ action ≠ .consumerCrash)
    (step : ringStep ⟨ring, some ⟨head, writer⟩, some ⟨next, reader⟩⟩ action =
      some (⟨written, some ⟨ahead, writing⟩, some ⟨behind, reading⟩⟩, events)) :
    Meets memory writing reading (published + (RingEvent.publishedPayloads events).length)
      (consumed + (RingEvent.consumedPayloads events).length) := by
  refine ⟨written, ahead, behind, history ++ events, .next reach stays step, ?_, ?_⟩
  · rw [RingEvent.publishedPayloads_append, List.length_append, puts]
  · rw [RingEvent.consumedPayloads, List.filterMap_append, List.length_append]
    exact congrArg (· + _) takes

theorem Meets.tryPublish (meets : Meets memory .idle reader published consumed)
    (fits : bytes.length ≤ slotPayload) :
    Meets memory (.loadTail bytes) reader published consumed := by
  obtain ⟨ring, head, next, history, reach, puts, takes⟩ := meets
  exact .after reach puts takes (.tryPublish bytes) (by simp)
    (by simp only [ringStep, RingProducer.tryPublish, fits, true_and, if_true]; rfl)

theorem Meets.room (meets : Meets memory (.loadTail bytes) reader published consumed)
    (free : published < consumed + ringCapacity) :
    Meets memory (.copy bytes 0) reader published consumed := by
  obtain ⟨ring, head, next, history, reach, puts, takes⟩ := meets
  obtain ⟨queue, linked, taken, entered, -⟩ :=
    queue_of_reach (reach.mono fun _ _ => NoCrash.safe)
  rw [takes] at taken
  rw [puts, Queue.entered] at entered
  have admitted : ¬ head - ring.tail ≥ UInt64.ofNat ringCapacity := by
    rw [show head = .ofNat queue.entered from linked.producer.1]
    exact fun full => absurd (linked.stored.full_iff.mp full) (by omega)
  exact .after reach puts takes .producerStep (by simp)
    (by simp only [ringStep, RingProducer.step, if_neg admitted, Option.map_some]; rfl)

theorem Meets.copied {offset : Fin slotPayload}
    (meets : Meets memory (.copy bytes offset) reader published consumed) :
    Meets memory (.storeSeq bytes) reader published consumed := by
  induction remaining : slotPayload - offset.val generalizing offset with
  | zero => omega
  | succ remaining ih =>
    obtain ⟨ring, head, next, history, reach, puts, takes⟩ := meets
    by_cases more : offset.val + 1 < slotPayload
    · have further : Meets memory (.copy bytes ⟨offset + 1, more⟩) reader published consumed :=
        .after reach puts takes .producerStep (by simp)
          (by simp only [ringStep, RingProducer.step, dif_pos more, Option.map_some]; rfl)
      exact ih further (by simp only; omega)
    · exact .after reach puts takes .producerStep (by simp)
        (by simp only [ringStep, RingProducer.step, dif_neg more, Option.map_some]; rfl)

theorem Meets.storeSeq (meets : Meets memory (.storeSeq bytes) reader published consumed) :
    Meets memory .storeHead reader (published + 1) consumed := by
  obtain ⟨ring, head, next, history, reach, puts, takes⟩ := meets
  exact .after reach puts takes .producerStep (by simp) rfl

theorem Meets.storeHead (meets : Meets memory .storeHead reader published consumed) :
    Meets memory .idle reader published consumed := by
  obtain ⟨ring, head, next, history, reach, puts, takes⟩ := meets
  exact .after reach puts takes .producerStep (by simp) rfl

theorem Meets.tryConsume (meets : Meets memory writer .idle published consumed)
    (out : Payload) : Meets memory writer (.loadSeq out) published consumed := by
  obtain ⟨ring, head, next, history, reach, puts, takes⟩ := meets
  exact .after reach puts takes (.tryConsume out) (by simp) rfl

theorem Meets.ready (meets : Meets memory writer (.loadSeq out) published consumed)
    (waits : consumed < published) : Meets memory writer (.copy 0 out) published consumed := by
  obtain ⟨ring, head, next, history, reach, puts, takes⟩ := meets
  obtain ⟨queue, linked, taken, entered, -⟩ :=
    queue_of_reach (reach.mono fun _ _ => NoCrash.safe)
  rw [takes] at taken
  rw [puts, Queue.entered] at entered
  have nonempty : queue.items ≠ [] := List.ne_nil_of_length_pos (by omega)
  have stored : ¬ (ring.slots (slotIndex next)).seq ≠ next + 1 := by
    rw [show next = .ofNat queue.taken from linked.consumer.1, slotIndex_ofNat, not_not]
    exact linked.stored.seq_eq_iff.mpr nonempty
  exact .after reach puts takes .consumerStep (by simp)
    (by simp only [ringStep, RingConsumer.step, if_neg stored, Option.map_some]; rfl)

theorem Meets.copiedOut {offset : Fin slotPayload}
    (meets : Meets memory writer (.copy offset out) published consumed) :
    ∃ out, Meets memory writer (.storeTail out) published consumed := by
  induction remaining : slotPayload - offset.val generalizing offset out with
  | zero => omega
  | succ remaining ih =>
    obtain ⟨ring, head, next, history, reach, puts, takes⟩ := meets
    by_cases more : offset.val + 1 < slotPayload
    · have ⟨out, further⟩ :
          ∃ out, Meets memory writer (.copy ⟨offset + 1, more⟩ out) published consumed :=
        ⟨_, .after reach puts takes .consumerStep (by simp)
          (by simp only [ringStep, RingConsumer.step, dif_pos more, Option.map_some]; rfl)⟩
      exact ih further (by simp only; omega)
    · exact ⟨_, .after reach puts takes .consumerStep (by simp)
        (by simp only [ringStep, RingConsumer.step, dif_neg more, Option.map_some]; rfl)⟩

theorem Meets.storeTail (meets : Meets memory writer (.storeTail out) published consumed) :
    Meets memory writer .idle published (consumed + 1) := by
  obtain ⟨ring, head, next, history, reach, puts, takes⟩ := meets
  exact .after reach puts takes .consumerStep (by simp) rfl

theorem Meets.publishOne (meets : Meets memory .idle reader published consumed)
    (free : published < consumed + ringCapacity) :
    Meets memory .storeHead reader (published + 1) consumed :=
  have called : Meets memory (.loadTail []) reader published consumed :=
    meets.tryPublish (Nat.zero_le _)
  (called.room free).copied.storeSeq

theorem Meets.consumeOne (meets : Meets memory writer .idle published consumed)
    (waits : consumed < published) : Meets memory writer .idle published (consumed + 1) :=
  have called := meets.tryConsume (zeroPad [])
  have ⟨_, copied⟩ := (called.ready waits).copiedOut
  copied.storeTail

theorem meets_all (memory : SpscRing) (count : Nat) : Meets memory .idle .idle count count := by
  induction count with
  | zero => exact .start
  | succ count ih =>
    have free : count < count + ringCapacity := Nat.lt_add_of_pos_right (by decide)
    exact (ih.publishOne free).storeHead.consumeOne (Nat.lt_succ_self count)

/-- With the 2^64-th message consumed before its head store, the estimate is 2^64 - 1. -/
theorem pending_wraps : ¬ ∀ memory state history consumer,
    (spsc memory).Reach NoCrash state history → state.consumer = some consumer →
    consumer.pc = .idle → Estimates (consumer.pending state.ring).toNat
      ((RingEvent.publishedPayloads history).length -
        (RingEvent.consumedPayloads history).length) := by
  intro always
  have free : 2 ^ 64 - 1 < 2 ^ 64 - 1 + ringCapacity := Nat.lt_add_of_pos_right (by decide)
  have meets := ((meets_all .zeroed (2 ^ 64 - 1)).publishOne free).consumeOne (by omega)
  obtain ⟨ring, head, next, history, reach, puts, takes⟩ := meets
  have counts := counts_of_reach (reach.mono fun _ _ => NoCrash.safe)
  have estimate := always _ _ _ _ reach rfl rfl
  have counted : RingState.counted ⟨ring, some ⟨head, .storeHead⟩, some ⟨next, .idle⟩⟩ history =
      2 ^ 64 - 1 := by
    change (RingEvent.publishedPayloads history).length - 1 = 2 ^ 64 - 1
    rw [puts, Nat.add_sub_cancel]
  have stored := counts.head
  have nextSeq := counts.nextSeq _ rfl
  rw [RingConsumer.pending, stored, nextSeq, estimates_iff counts.ahead counts.room counts.counted,
    counted, puts, takes] at estimate
  omega

end Rounds

end TradingPipeline.Shmbus
