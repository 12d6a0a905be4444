import TradingPipeline.Shmbus.Attach
import TradingPipeline.Shmbus.RingMemory

/-! The bus as the bytes of the mapped file.

Every load reads bytes at an offset of the layout, and every store writes them. A run on the bytes
is the run of the bus that they mean.
-/

set_option autoImplicit false

namespace TradingPipeline.Shmbus

open Foundation

section Sides

theorem slotPayload_pos : 0 < slotPayload := by decide

/-- `RingProducer::new` on the bytes of a ring. -/
def RingProducer.attach (offset : Nat) (bytes : List UInt8) : RingProducer :=
  ⟨readU64 bytes offset, .idle⟩

/-- `RingConsumer::new` on the bytes of a ring. -/
def RingConsumer.attach (offset : Nat) (bytes : List UInt8) : RingConsumer :=
  ⟨readU64 bytes (offset + 64), .idle⟩

/-- The next step of `try_publish` on the bytes of a ring. -/
def RingProducer.byteStep (offset : Nat) (bytes : List UInt8) (producer : RingProducer) :
    Option (List UInt8 × RingProducer × List RingEvent) :=
  let slot := SpscRing.slotOffset offset (slotIndex producer.nextSeq)
  match producer.pc with
  | .idle => none
  | .loadTail message =>
    if producer.nextSeq - readU64 bytes (offset + 64) ≥ UInt64.ofNat ringCapacity then
      some (bytes, { producer with pc := .idle }, [.fullTest true, .publishReturn false])
    else some (bytes, { producer with pc := .copy message ⟨0, slotPayload_pos⟩ }, [.fullTest false])
  | .copy message place =>
    some (LittleEndian.overwrite bytes (slot + 16 + place) [message.getD place 0],
      { producer with pc :=
          if next : place.val + 1 < slotPayload then .copy message ⟨place + 1, next⟩
          else .storeSeq message },
      [])
  | .storeSeq message =>
    some (LittleEndian.overwrite bytes slot (u64Bytes (producer.nextSeq + 1)),
      ⟨producer.nextSeq + 1, .storeHead⟩, [.published producer.nextSeq (zeroPad message)])
  | .storeHead =>
    some (LittleEndian.overwrite bytes offset (u64Bytes producer.nextSeq),
      { producer with pc := .idle }, [.publishReturn true])

/-- The next step of `try_consume` on the bytes of a ring. -/
def RingConsumer.byteStep (offset : Nat) (bytes : List UInt8) (consumer : RingConsumer) :
    Option (List UInt8 × RingConsumer × List RingEvent) :=
  let slot := SpscRing.slotOffset offset (slotIndex consumer.nextSeq)
  match consumer.pc with
  | .idle => none
  | .loadSeq out =>
    if readU64 bytes slot ≠ consumer.nextSeq + 1 then
      some (bytes, { consumer with pc := .idle }, [.emptyTest true, .consumeReturn none])
    else some (bytes, { consumer with pc := .copy ⟨0, slotPayload_pos⟩ out }, [.emptyTest false])
  | .copy place out =>
    let copy := out.set place (bytes.getD (slot + 16 + place) 0) place.isLt
    if next : place.val + 1 < slotPayload then
      some (bytes, { consumer with pc := .copy ⟨place + 1, next⟩ copy }, [])
    else some (bytes, { consumer with pc := .storeTail copy }, [.copied copy])
  | .storeTail out =>
    some (LittleEndian.overwrite bytes (offset + 64) (u64Bytes (consumer.nextSeq + 1)),
      ⟨consumer.nextSeq + 1, .idle⟩,
      [.consumed consumer.nextSeq out, .consumeReturn (some out)])

end Sides

/-- What a ring's processes do to the bytes, where the ring lies at an offset. -/
def byteRingStep (offset : Nat) (bytes : List UInt8) (ends : RingEnds) :
    RingAction → Option (List UInt8 × RingEnds × List RingEvent)
  | .tryPublish message =>
    match ends.producer with
    | none => none
    | some producer =>
      (producer.tryPublish message).map fun called =>
        (bytes, { ends with producer := some called }, [.publishCall (zeroPad message)])
  | .producerStep =>
    match ends.producer with
    | none => none
    | some producer =>
      (producer.byteStep offset bytes).map fun (written, moved, events) =>
        (written, { ends with producer := some moved }, events)
  | .producerCrash =>
    match ends.producer with
    | none => none
    | some _ => some (bytes, { ends with producer := none }, [.producerCrashed])
  | .producerNew =>
    match ends.producer with
    | none => some (bytes, { ends with producer := some (.attach offset bytes) }, [])
    | some _ => none
  | .tryConsume out =>
    match ends.consumer with
    | none => none
    | some consumer =>
      (consumer.tryConsume out).map fun called =>
        (bytes, { ends with consumer := some called }, [.consumeCall])
  | .consumerStep =>
    match ends.consumer with
    | none => none
    | some consumer =>
      (consumer.byteStep offset bytes).map fun (written, moved, events) =>
        (written, { ends with consumer := some moved }, events)
  | .consumerCrash =>
    match ends.consumer with
    | none => none
    | some _ => some (bytes, { ends with consumer := none }, [.consumerCrashed])
  | .consumerNew =>
    match ends.consumer with
    | none => some (bytes, { ends with consumer := some (.attach offset bytes) }, [])
    | some _ => none

/-- Any number of processes around the bytes of one file. -/
structure MappedBus (n : Nat) where
  bytes : Option (List UInt8)
  openers : Fin n → OpenerPc
  ends : BusRing → RingEnds

section Bus

variable {n : Nat}

namespace MappedBus

def setOpener (state : MappedBus n) (id : Fin n) (pc : OpenerPc) : MappedBus n :=
  { state with openers := Function.update state.openers id pc }

/-- The bus that the bytes mean. -/
def meaning (state : MappedBus n) : BusState n :=
  ⟨state.bytes.map .ofBytes, state.openers, state.ends⟩

end MappedBus

def mappedStep (state : MappedBus n) : BusAction n → Option (MappedBus n × List (BusEvent n))
  | .opener id =>
    if state.openers id = .openFile then
      some ({ state with bytes := some (state.bytes.getD []) }.setOpener id .readLen, [])
    else
      match state.bytes with
      | none => none
      | some bytes =>
        (fileStep bytes (state.openers id)).map fun (written, pc) =>
          ({ state with bytes := some written }.setOpener id pc, (state.openers id).shows id)
  | .osError id =>
    if (state.openers id).system then some (state.setOpener id (.failed .os), []) else none
  | .ring id which action =>
    if state.openers id = .attached then
      match state.bytes with
      | none => none
      | some bytes =>
        (byteRingStep which.offset bytes (state.ends which) action).map fun (written, ends, shown) =>
          ({ state with bytes := some written, ends := Function.update state.ends which ends },
            shown.map (.ring which))
    else none

/-- All processes before their call, on a path without a file. -/
def mappedBus (n : Nat) : System (MappedBus n) (BusAction n) (BusEvent n) where
  start := ⟨none, fun _ => .openFile, fun _ => ⟨none, none⟩⟩
  step := mappedStep

end Bus

section Ring

variable {bytes written data : List UInt8} {offset : Nat}

/-- A write within a ring changes no other byte. -/
structure Within (offset : Nat) (bytes written : List UInt8) : Prop where
  length : written.length = bytes.length
  outside : ∀ place width, place + width ≤ offset ∨ offset + ringSize ≤ place →
    LittleEndian.field written place width = LittleEndian.field bytes place width

theorem Within.refl (offset : Nat) (bytes : List UInt8) : Within offset bytes bytes :=
  ⟨rfl, fun _ _ _ => rfl⟩

theorem Within.overwrite (mapped : offset + ringSize ≤ bytes.length) {place : Nat}
    (front : offset ≤ place) (back : place + data.length ≤ offset + ringSize) :
    Within offset bytes (LittleEndian.overwrite bytes place data) where
  length := LittleEndian.length_overwrite (by omega)
  outside other width apart := LittleEndian.field_overwrite_other (by omega) (by omega)

theorem readU64_stored (word : UInt64) {place : Nat} (within : place + 8 ≤ bytes.length) :
    readU64 (LittleEndian.overwrite bytes place (u64Bytes word)) place = word := by
  have length := length_u64Bytes word
  have self := LittleEndian.field_overwrite_self (length.symm ▸ within)
  rw [length] at self
  rw [readU64, self, ofBytes_u64Bytes, UInt64.ofNat_toNat]

namespace SpscRing

section Words

variable {word : Nat} (mem : word ∈ initOffsets offset) (mapped : offset + ringSize ≤ bytes.length)
include mem mapped

theorem readU64_storeWord (value : UInt64) {other : Nat} (memOther : other ∈ initOffsets offset) :
    readU64 (LittleEndian.overwrite bytes word (u64Bytes value)) other =
      if word = other then value else readU64 bytes other := by
  have size := length_u64Bytes value
  have bound := initOffsets_within mem
  by_cases same : word = other
  · rw [if_pos same, ← same]
    exact readU64_stored value (by omega)
  · rw [if_neg same]
    obtain ⟨line, rfl⟩ := initOffsets_aligned mem
    obtain ⟨otherLine, rfl⟩ := initOffsets_aligned memOther
    exact readU64_congr (LittleEndian.field_overwrite_other (by omega) (by omega))

theorem payload_storeWord (value : UInt64) (index : Fin ringCapacity) :
    LittleEndian.field (LittleEndian.overwrite bytes word (u64Bytes value))
        (slotOffset offset index + 16) slotPayload =
      LittleEndian.field bytes (slotOffset offset index + 16) slotPayload := by
  have size := length_u64Bytes value
  have bound := initOffsets_within mem
  refine LittleEndian.field_overwrite_other (by omega) ?_
  rcases mem_initOffsets mem with rfl | rfl | ⟨other, rfl⟩ <;> unfold slotOffset slotPayload <;>
    omega

end Words

theorem mem_head (offset : Nat) : offset ∈ initOffsets offset := List.mem_cons_self

theorem mem_tail (offset : Nat) : offset + 64 ∈ initOffsets offset :=
  List.mem_cons_of_mem _ List.mem_cons_self

theorem slotOffset_inj {index other : Fin ringCapacity} :
    slotOffset offset index = slotOffset offset other ↔ other = index := by
  unfold slotOffset
  omega

theorem eq_of_slots {ring other : SpscRing} (head : ring.head = other.head)
    (tail : ring.tail = other.tail)
    (seq : ∀ index, (ring.slots index).seq = (other.slots index).seq)
    (payload : ∀ index place,
      (ring.slots index).payload.get place = (other.slots index).payload.get place) :
    ring = other := by
  have slots : ring.slots = other.slots := by
    funext index
    have bytes : (ring.slots index).payload = (other.slots index).payload :=
      Vector.ext fun place less => payload index ⟨place, less⟩
    calc
      _ = Slot.mk (ring.slots index).seq (ring.slots index).payload := rfl
      _ = _ := by rw [seq, bytes]
  calc
    _ = mk ring.head ring.tail ring.slots := rfl
    _ = _ := by rw [head, tail, slots]

variable (mapped : offset + ringSize ≤ bytes.length)
include mapped

theorem ofBytes_storeHead (value : UInt64) :
    ofBytes (LittleEndian.overwrite bytes offset (u64Bytes value)) offset =
      { ofBytes bytes offset with head := value } := by
  have apart (index : Fin ringCapacity) : offset ≠ slotOffset offset index := by
    have behind := slotOffset_lt offset index
    omega
  have tail : offset ≠ offset + 64 := by omega
  simp only [ofBytes, readU64_storeWord (mem_head offset) mapped value (mem_head offset),
    readU64_storeWord (mem_head offset) mapped value (mem_tail offset),
    readU64_storeWord (mem_head offset) mapped value (mem_slotOffset offset _),
    payload_storeWord (mem_head offset) mapped, if_true, if_neg tail, if_neg (apart _)]

theorem ofBytes_storeTail (value : UInt64) :
    ofBytes (LittleEndian.overwrite bytes (offset + 64) (u64Bytes value)) offset =
      { ofBytes bytes offset with tail := value } := by
  have apart (index : Fin ringCapacity) : offset + 64 ≠ slotOffset offset index := by
    have behind := slotOffset_lt offset index
    omega
  have head : offset + 64 ≠ offset := by omega
  simp only [ofBytes, readU64_storeWord (mem_tail offset) mapped value (mem_head offset),
    readU64_storeWord (mem_tail offset) mapped value (mem_tail offset),
    readU64_storeWord (mem_tail offset) mapped value (mem_slotOffset offset _),
    payload_storeWord (mem_tail offset) mapped, if_true, if_neg head, if_neg (apart _)]

theorem ofBytes_storeSeq (index : Fin ringCapacity) (value : UInt64) :
    ofBytes (LittleEndian.overwrite bytes (slotOffset offset index) (u64Bytes value)) offset =
      (ofBytes bytes offset).storeSeq index value := by
  have mem := mem_slotOffset offset index
  have bound := slotOffset_lt offset index
  have head : slotOffset offset index ≠ offset := by omega
  have tail : slotOffset offset index ≠ offset + 64 := by omega
  simp only [ofBytes, storeSeq, readU64_storeWord mem mapped value (mem_head offset),
    readU64_storeWord mem mapped value (mem_tail offset),
    readU64_storeWord mem mapped value (mem_slotOffset offset _),
    payload_storeWord mem mapped, if_neg head, if_neg tail, slotOffset_inj, mk.injEq, true_and]
  funext other
  by_cases same : other = index
  · rw [if_pos same, same, Function.update_self]
  · rw [if_neg same, Function.update_of_ne same]

omit mapped in
theorem payload_ofBytes (index : Fin ringCapacity) (place : Fin slotPayload) :
    ((ofBytes bytes offset).slots index).payload.get place =
      bytes.getD (slotOffset offset index + 16 + place) 0 := by
  have get (payload : Payload) : payload.get place = payload[place.val] := rfl
  simp only [get, ofBytes, Vector.getElem_ofFn, List.getD_eq_getElem?_getD,
    LittleEndian.getElem?_field, if_pos place.isLt]

theorem ofBytes_writeByte (index : Fin ringCapacity) (place : Fin slotPayload) (byte : UInt8) :
    ofBytes (LittleEndian.overwrite bytes (slotOffset offset index + 16 + place) [byte]) offset =
      (ofBytes bytes offset).writeByte index place byte := by
  have bound := slotOffset_lt offset index
  have less : place.val < 80 := place.isLt
  have size : [byte].length = 1 := rfl
  have within : slotOffset offset index + 16 + place + [byte].length ≤ bytes.length := by omega
  -- no word lies where a payload does
  have word {other : Nat} (mem : other ∈ initOffsets offset) :
      readU64 (LittleEndian.overwrite bytes (slotOffset offset index + 16 + place) [byte]) other =
        readU64 bytes other := by
    refine readU64_congr (LittleEndian.field_overwrite_other within ?_)
    rcases mem_initOffsets mem with rfl | rfl | ⟨slot, rfl⟩ <;> unfold slotOffset at * <;> omega
  have read (other : Fin ringCapacity) (position : Fin slotPayload) :
      (LittleEndian.overwrite bytes (slotOffset offset index + 16 + place) [byte]).getD
          (slotOffset offset other + 16 + position) 0 =
        if other = index ∧ position = place then byte
        else bytes.getD (slotOffset offset other + 16 + position) 0 := by
    have inside : position.val < 80 := position.isLt
    have here : slotOffset offset index + 16 + place ≤ slotOffset offset other + 16 + position ∧
        slotOffset offset other + 16 + position <
          slotOffset offset index + 16 + place + [byte].length ↔
        other = index ∧ position = place := by
      unfold slotOffset
      omega
    rw [List.getD_eq_getElem?_getD, LittleEndian.getElem?_overwrite within, if_congr here rfl rfl]
    split
    · next same => rw [same.1, same.2, Nat.sub_self]; rfl
    · rw [List.getD_eq_getElem?_getD]
  refine eq_of_slots (word (mem_head offset)) (word (mem_tail offset)) (fun other => ?_)
    fun other position => ?_
  · rw [writeByte_seq]
    exact word (mem_slotOffset offset other)
  · rw [payload_ofBytes, read]
    by_cases same : other = index
    · rw [same, writeByte_get, payload_ofBytes]
      exact if_congr (and_iff_right rfl) rfl rfl
    · rw [writeByte_other _ _ _ _ _ same, payload_ofBytes, if_neg fun both => same both.1]

end SpscRing

variable (mapped : offset + ringSize ≤ bytes.length)
include mapped

theorem RingProducer.byteStep_meaning (producer : RingProducer) :
    (producer.byteStep offset bytes).map (fun (written, moved, events) =>
      (SpscRing.ofBytes written offset, moved, events)) =
        producer.step (.ofBytes bytes offset) := by
  obtain ⟨nextSeq, pc⟩ := producer
  cases pc with
  | idle => rfl
  | loadTail message =>
    have tail : (SpscRing.ofBytes bytes offset).tail = readU64 bytes (offset + 64) := rfl
    simp only [byteStep, step, tail]
    split <;> rfl
  | copy message place =>
    simp only [byteStep, step, Option.map_some, SpscRing.ofBytes_writeByte mapped]
  | storeSeq message =>
    simp only [byteStep, step, Option.map_some, SpscRing.ofBytes_storeSeq mapped]
  | storeHead =>
    simp only [byteStep, step, Option.map_some, SpscRing.ofBytes_storeHead mapped]

theorem RingConsumer.byteStep_meaning (consumer : RingConsumer) :
    (consumer.byteStep offset bytes).map (fun (written, moved, events) =>
      (SpscRing.ofBytes written offset, moved, events)) =
        consumer.step (.ofBytes bytes offset) := by
  obtain ⟨nextSeq, pc⟩ := consumer
  cases pc with
  | idle => rfl
  | loadSeq out =>
    have seq : ((SpscRing.ofBytes bytes offset).slots (slotIndex nextSeq)).seq =
        readU64 bytes (SpscRing.slotOffset offset (slotIndex nextSeq)) := rfl
    simp only [byteStep, step, seq]
    split <;> rfl
  | copy place out =>
    have read : ((SpscRing.ofBytes bytes offset).slots (slotIndex nextSeq)).payload[place] = _ :=
      SpscRing.payload_ofBytes (slotIndex nextSeq) place
    simp only [byteStep, step, read]
    split <;> rfl
  | storeTail out =>
    simp only [byteStep, step, Option.map_some, SpscRing.ofBytes_storeTail mapped]

theorem RingProducer.byteStep_within {producer moved : RingProducer} {events : List RingEvent}
    (step : producer.byteStep offset bytes = some (written, moved, events)) :
    Within offset bytes written := by
  obtain ⟨nextSeq, pc⟩ := producer
  have slot := slotOffset_lt offset (slotIndex nextSeq)
  cases pc with
  | idle => contradiction
  | loadTail message =>
    simp only [byteStep] at step
    split at step <;> cases step <;> exact .refl offset bytes
  | copy message place =>
    cases step
    have less : place.val < 80 := place.isLt
    refine .overwrite mapped (by dsimp only; omega) ?_
    rw [List.length_singleton]
    dsimp only
    omega
  | storeSeq message =>
    cases step
    refine .overwrite mapped (by dsimp only; omega) ?_
    rw [length_u64Bytes]
    dsimp only
    omega
  | storeHead =>
    cases step
    refine .overwrite mapped (Nat.le_refl _) ?_
    rw [length_u64Bytes]
    omega

theorem RingConsumer.byteStep_within {consumer moved : RingConsumer} {events : List RingEvent}
    (step : consumer.byteStep offset bytes = some (written, moved, events)) :
    Within offset bytes written := by
  obtain ⟨nextSeq, pc⟩ := consumer
  cases pc with
  | idle => contradiction
  | loadSeq out =>
    simp only [byteStep] at step
    split at step <;> cases step <;> exact .refl offset bytes
  | copy place out =>
    simp only [byteStep] at step
    split at step <;> cases step <;> exact .refl offset bytes
  | storeTail out =>
    cases step
    have slot := slotOffset_lt offset 0
    refine .overwrite mapped (Nat.le_add_right _ _) ?_
    rw [length_u64Bytes]
    omega

theorem byteRingStep_meaning (ends : RingEnds) (action : RingAction) :
    (byteRingStep offset bytes ends action).map (fun (written, ends, events) =>
      (RingState.mk (.ofBytes written offset) ends.producer ends.consumer, events)) =
        ringStep ⟨.ofBytes bytes offset, ends.producer, ends.consumer⟩ action := by
  obtain ⟨producer, consumer⟩ := ends
  cases action with
  | tryPublish message =>
    cases producer with
    | none => rfl
    | some producer => simp only [byteRingStep, ringStep, Option.map_map, Function.comp_def]
  | producerStep =>
    cases producer with
    | none => rfl
    | some producer =>
      simp only [byteRingStep, ringStep, ← producer.byteStep_meaning mapped, Option.map_map,
        Function.comp_def]
  | tryConsume out =>
    cases consumer with
    | none => rfl
    | some consumer => simp only [byteRingStep, ringStep, Option.map_map, Function.comp_def]
  | consumerStep =>
    cases consumer with
    | none => rfl
    | some consumer =>
      simp only [byteRingStep, ringStep, ← consumer.byteStep_meaning mapped, Option.map_map,
        Function.comp_def]
  | producerCrash | producerNew => cases producer <;> rfl
  | consumerCrash | consumerNew => cases consumer <;> rfl

theorem byteRingStep_within {ends after : RingEnds} {action : RingAction}
    {events : List RingEvent}
    (step : byteRingStep offset bytes ends action = some (written, after, events)) :
    Within offset bytes written := by
  obtain ⟨producer, consumer⟩ := ends
  cases action with
  | tryPublish message =>
    cases producer with
    | none => contradiction
    | some producer =>
      obtain ⟨called, _, made⟩ := Option.map_eq_some_iff.mp step
      cases made
      exact .refl offset bytes
  | producerStep =>
    cases producer with
    | none => contradiction
    | some producer =>
      obtain ⟨⟨stored, moved, shown⟩, taken, made⟩ := Option.map_eq_some_iff.mp step
      cases made
      exact producer.byteStep_within mapped taken
  | tryConsume out =>
    cases consumer with
    | none => contradiction
    | some consumer =>
      obtain ⟨called, _, made⟩ := Option.map_eq_some_iff.mp step
      cases made
      exact .refl offset bytes
  | consumerStep =>
    cases consumer with
    | none => contradiction
    | some consumer =>
      obtain ⟨⟨stored, moved, shown⟩, taken, made⟩ := Option.map_eq_some_iff.mp step
      cases made
      exact consumer.byteStep_within mapped taken
  | producerCrash | producerNew =>
    cases producer <;> cases step
    exact .refl offset bytes
  | consumerCrash | consumerNew =>
    cases consumer <;> cases step
    exact .refl offset bytes

end Ring

section File

variable {bytes written : List UInt8}

theorem ofBytes_nil : BusFile.ofBytes [] = .empty := by
  have field (place width : Nat) : LittleEndian.field [] place width = [] := by
    rw [LittleEndian.field, List.drop_nil, List.take_nil]
  have word (place : Nat) : readU64 [] place = 0 := by
    rw [readU64, field]
    rfl
  have header (place : Nat) : readU32 [] place = 0 := by
    rw [readU32, field]
    rfl
  have ring (offset : Nat) : SpscRing.ofBytes [] offset = .zeroed := by
    refine SpscRing.eq_of_slots (word _) (word _) (fun _ => word _) fun index place => ?_
    have get (payload : Payload) : payload.get place = payload[place.val] := rfl
    rw [SpscRing.payload_ofBytes, get]
    simp [SpscRing.zeroed]
  simp only [BusFile.ofBytes, header, ring]
  rfl

theorem Within.meaning {which : BusRing} (within : Within which.offset bytes written) :
    BusFile.ofBytes written =
      { BusFile.ofBytes bytes with
        layout := (BusFile.ofBytes bytes).layout.setRing which
          (SpscRing.ofBytes written which.offset) } := by
  have bound := offset_within which
  have header {place : Nat} (inside : place + 4 ≤ 64) :
      readU32 written place = readU32 bytes place :=
    readU32_congr (within.outside place 4 (.inl (by omega)))
  have ring : (fun other : BusRing => SpscRing.ofBytes written other.offset) =
      Function.update (fun other : BusRing => SpscRing.ofBytes bytes other.offset) which
        (SpscRing.ofBytes written which.offset) := by
    funext other
    by_cases same : other = which
    · rw [same, Function.update_self]
    · rw [Function.update_of_ne same]
      have apart := offset_apart same
      exact ofBytes_congr fun place width front back => within.outside place width (by omega)
  have magic := header (Nat.le_add_left 4 60)
  have version := header (Nat.le_add_left 8 56)
  have ready := header (Nat.le_add_left 12 52)
  simp only [BusFile.ofBytes, within.length, magic, version, ready, ring]
  rfl

/-- `set_len` on a file that is not longer, whoever has extended it in the meantime. -/
theorem ofBytes_setLen (bounded : bytes.length ≤ busSize) :
    BusFile.ofBytes (OpenerPc.store .setLen bytes) = { BusFile.ofBytes bytes with len := busSize } := by
  have layout : (BusFile.ofBytes (OpenerPc.store .setLen bytes)).layout = _ :=
    ofBytes_extend bytes (busSize - bytes.length)
  have length : (OpenerPc.store .setLen bytes).length = busSize := by
    rw [OpenerPc.store, List.length_append, List.length_replicate]
    omega
  calc
    _ = BusFile.mk (OpenerPc.store .setLen bytes).length
        (BusFile.ofBytes (OpenerPc.store .setLen bytes)).layout := rfl
    _ = _ := by rw [layout, length]

/-- A step of `open_or_create` on the bytes is that on the file which they mean. -/
theorem fileStep_meaning {pc : OpenerPc} (opened : pc ≠ .openFile)
    (mapped : pc.sized = true → busSize ≤ bytes.length) (bounded : bytes.length ≤ busSize) :
    (fileStep bytes pc).map (Prod.map .ofBytes id) = openedStep (.ofBytes bytes) pc := by
  have same : fileStep bytes pc =
      (openedStep (.ofBytes bytes) pc).map fun result => (pc.store bytes, result.2) := by
    cases pc with
    | openFile => contradiction
    | _ => rfl
  cases taken : openedStep (.ofBytes bytes) pc with
  | none => rw [same, taken]; rfl
  | some result =>
    obtain ⟨file, next⟩ := result
    have meant : file = .ofBytes (pc.store bytes) := by
      by_cases extends' : pc = .setLen
      · subst extends'
        cases taken
        exact (ofBytes_setLen bounded).symm
      · exact ofBytes_store mapped (fun making => absurd making extends') taken
    rw [same, taken, meant]
    rfl

end File

section Runs

variable {n : Nat}

/-- A step on one ring leaves the bytes of the bus whose ring has taken that step. -/
theorem mappedRing_meaning (state : MappedBus n) {bytes : List UInt8}
    (whole : busSize ≤ bytes.length) (which : BusRing) (action : RingAction) :
    ((byteRingStep which.offset bytes (state.ends which) action).map fun (written, ends, shown) =>
        (MappedBus.meaning { state with
            bytes := some written, ends := Function.update state.ends which ends },
          shown.map (BusEvent.ring (n := n) which))) =
      (ringStep (state.meaning.ringState (.ofBytes bytes) which) action).map fun (ring, shown) =>
        (state.meaning.setRing (.ofBytes bytes) which ring,
          shown.map (BusEvent.ring (n := n) which)) := by
  have mapped := (offset_within which).2.trans whole
  have here : _ = ringStep (state.meaning.ringState (.ofBytes bytes) which) action :=
    byteRingStep_meaning mapped (state.ends which) action
  rw [← here, Option.map_map]
  cases taken : byteRingStep which.offset bytes (state.ends which) action with
  | none => rfl
  | some result =>
    obtain ⟨written, ends, shown⟩ := result
    have file := (byteRingStep_within mapped taken).meaning
    simp only [Option.map_some, Function.comp_apply, MappedBus.meaning, BusState.setRing, file]

theorem mappedStep_meaning (state : MappedBus n) (action : BusAction n)
    (sized : Sized state.meaning) :
    (mappedStep state action).map (Prod.map MappedBus.meaning id) =
      busStep state.meaning action := by
  obtain ⟨bytes, openers, ends⟩ := state
  cases action with
  | opener who =>
    by_cases closed : openers who = .openFile
    · have meant : (MappedBus.meaning ⟨bytes, openers, ends⟩).openers who = .openFile := closed
      rw [mappedStep, busStep, if_pos closed, if_pos meant]
      -- an absent file is created without bytes
      cases bytes with
      | none => rw [MappedBus.meaning, Option.map_none, Option.getD_none, ← ofBytes_nil]; rfl
      | some bytes => rfl
    · have meant : (MappedBus.meaning ⟨bytes, openers, ends⟩).openers who ≠ .openFile := closed
      rw [mappedStep, busStep, if_neg closed, if_neg meant]
      cases bytes with
      | none => rfl
      | some bytes =>
        have mapped : (openers who).sized = true → busSize ≤ bytes.length := by
          intro past
          obtain ⟨file, found, len⟩ := sized.whole who past
          cases found
          exact Nat.le_of_eq len.symm
        have here := fileStep_meaning closed mapped (sized.bounded _ rfl)
        calc
          _ = ((fileStep bytes (openers who)).map (Prod.map BusFile.ofBytes id)).map
              fun result => (BusState.setOpener ⟨some result.1, openers, ends⟩ who result.2,
                (openers who).shows who) := by
            simp only [Option.map_map]
            rfl
          _ = _ := by rw [here]; rfl
  | osError who =>
    simp only [mappedStep, busStep]
    split
    · next system => exact (if_pos (show (openers who).system = true from system)).symm
    · next system => exact (if_neg (show ¬ (openers who).system = true from system)).symm
  | ring who which action =>
    by_cases attached : openers who = .attached
    · have meant : (MappedBus.meaning ⟨bytes, openers, ends⟩).openers who = .attached := attached
      have past : ((MappedBus.meaning ⟨bytes, openers, ends⟩).openers who).sized = true := by
        rw [meant]
        rfl
      obtain ⟨file, found, len⟩ := sized.whole who past
      rw [mappedStep, busStep, if_pos attached, if_pos meant]
      cases bytes with
      | none => contradiction
      | some bytes =>
        cases found
        have whole : busSize ≤ bytes.length := Nat.le_of_eq len.symm
        have here := mappedRing_meaning ⟨some bytes, openers, ends⟩ whole which action
        rw [Option.map_map]
        exact here
    · have meant : (MappedBus.meaning ⟨bytes, openers, ends⟩).openers who ≠ .attached := attached
      rw [mappedStep, busStep, if_neg attached, if_neg meant]
      rfl

theorem mappedBus_start_sized (n : Nat) : Sized (mappedBus n).start.meaning := by
  constructor
  · intro file found
    contradiction
  · intro id past
    contradiction

/-- Every schedule does to the bytes what it does to the bus that they mean. -/
theorem mapped_runs (n : Nat) (schedule : List (BusAction n)) :
    ((mappedBus n).run schedule).map (Prod.map MappedBus.meaning id) = (bus n).run schedule :=
  System.runFrom_view MappedBus.meaning Sized (fun action sized => mappedStep_meaning _ action sized)
    (fun sized step => sized.step step) (mappedBus_start_sized n) schedule

end Runs

end TradingPipeline.Shmbus
