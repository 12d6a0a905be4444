import TradingPipeline.Shmbus.Initialisation
import TradingPipeline.Shmbus.Message

/-! A lone `open_or_create` on a file that exists, byte by byte.

The file of `Shm.lean` is what these bytes mean in the layout of the bus, and its steps are what
the writes to them do. Bytes that the file does not have read as zero, as they do once the file
is extended.
-/

set_option autoImplicit false

namespace TradingPipeline.Shmbus

open Foundation

/-- `size_of::<SpscRing>()`. -/
def ringSize : Nat := 2 * 64 + ringCapacity * 128

/-- Where a ring lies in `BusLayout`. -/
def BusRing.offset : BusRing → Nat
  | .ticks => 64
  | .orders => 64 + ringSize

namespace SpscRing

def slotOffset (offset : Nat) (index : Nat) : Nat := offset + 2 * 64 + 128 * index

/-- What the bytes at an offset mean as a ring; the payload of a slot follows its sequence number
and eight bytes of padding. -/
def ofBytes (bytes : List UInt8) (offset : Nat) : SpscRing where
  head := readU64 bytes offset
  tail := readU64 bytes (offset + 64)
  slots index :=
    { seq := readU64 bytes (slotOffset offset index)
      payload := Vector.ofFn fun place =>
        (LittleEndian.field bytes (slotOffset offset index + 16) slotPayload).getD place 0 }

/-- The words that `init_in_place` stores to: the cursors and the sequence numbers. -/
def initOffsets (offset : Nat) : List Nat :=
  offset :: (offset + 64) :: (List.range ringCapacity).map (slotOffset offset)

/-- `init_in_place` on the bytes of a ring. -/
def initBytes (bytes : List UInt8) (offset : Nat) : List UInt8 :=
  (initOffsets offset).foldl
    (fun bytes word => LittleEndian.overwrite bytes word (u64Bytes 0)) bytes

end SpscRing

/-- What the bytes of a file mean as a bus. -/
def BusFile.ofBytes (bytes : List UInt8) : BusFile where
  len := bytes.length
  layout :=
    { header := ⟨readU32 bytes 0, readU32 bytes 4, readU32 bytes 8⟩
      ring which := SpscRing.ofBytes bytes which.offset }

/-- What a step of `open_or_create` does to the bytes of the file. -/
def OpenerPc.store : OpenerPc → List UInt8 → List UInt8
  | .setLen, bytes => bytes ++ List.replicate (busSize - bytes.length) 0
  | .zero, bytes => LittleEndian.overwrite bytes 0 (List.replicate busSize 0)
  | .initTicks, bytes => SpscRing.initBytes bytes BusRing.ticks.offset
  | .initOrders, bytes => SpscRing.initBytes bytes BusRing.orders.offset
  | .storeVersion, bytes => LittleEndian.overwrite bytes 4 (u32Bytes busVersion)
  | .storeMagic, bytes => LittleEndian.overwrite bytes 0 (u32Bytes busMagic)
  | .storeReady, bytes => LittleEndian.overwrite bytes 8 (u32Bytes 1)
  | _, bytes => bytes

/-- One step on a file that exists; the loads are those of the file that the bytes mean. -/
def fileStep (bytes : List UInt8) : OpenerPc → Option (List UInt8 × OpenerPc)
  | .openFile => some (bytes, .readLen)
  | pc => (openedStep (.ofBytes bytes) pc).map fun (_, next) => (pc.store bytes, next)

/-- A call, from a step of it to its return. -/
inductive Calls : List UInt8 → OpenerPc → List UInt8 → OpenerPc → Prop where
  | returned {bytes : List UInt8} {result : OpenerPc}
      (ended : result = .attached ∨ ∃ error, result = .failed error) :
      Calls bytes result bytes result
  | step {bytes written after : List UInt8} {pc next result : OpenerPc}
      (step : fileStep bytes pc = some (written, next)) (rest : Calls written next after result) :
      Calls bytes pc after result

/-- `open_or_create` finds the bytes, leaves others, and returns. -/
def Opens (bytes after : List UInt8) (result : OpenerPc) : Prop :=
  Calls bytes .openFile after result

section Reads

variable {bytes : List UInt8} {offset : Nat}

theorem ofBytes_append_zero (bytes : List UInt8) (count : Nat) :
    LittleEndian.ofBytes (bytes ++ List.replicate count 0) = LittleEndian.ofBytes bytes := by
  have zero : LittleEndian.ofBytes (List.replicate count 0) = 0 := by
    induction count with
    | zero => rfl
    | succ count ih =>
      rw [List.replicate_succ, LittleEndian.ofBytes, ih]
      rfl
  induction bytes with
  | nil => exact zero
  | cons byte rest ih => rw [List.cons_append, LittleEndian.ofBytes, ih, LittleEndian.ofBytes]

theorem field_append_zero (bytes : List UInt8) (count offset width : Nat) :
    ∃ more, LittleEndian.field (bytes ++ List.replicate count 0) offset width =
      LittleEndian.field bytes offset width ++ List.replicate more 0 := by
  refine ⟨min (width - (bytes.length - offset)) (count - (offset - bytes.length)), ?_⟩
  rw [LittleEndian.field, LittleEndian.field, List.drop_append, List.take_append,
    List.drop_replicate, List.take_replicate, List.length_drop]

theorem readU64_extend (bytes : List UInt8) (count offset : Nat) :
    readU64 (bytes ++ List.replicate count 0) offset = readU64 bytes offset := by
  obtain ⟨more, same⟩ := field_append_zero bytes count offset 8
  rw [readU64, same, ofBytes_append_zero, readU64]

theorem readU32_extend (bytes : List UInt8) (count offset : Nat) :
    readU32 (bytes ++ List.replicate count 0) offset = readU32 bytes offset := by
  obtain ⟨more, same⟩ := field_append_zero bytes count offset 4
  rw [readU32, same, ofBytes_append_zero, readU32]

theorem readU64_congr {other : List UInt8} {place : Nat}
    (same : LittleEndian.field bytes offset 8 = LittleEndian.field other place 8) :
    readU64 bytes offset = readU64 other place := by
  rw [readU64, same, readU64]

theorem readU32_congr {other : List UInt8} {place : Nat}
    (same : LittleEndian.field bytes offset 4 = LittleEndian.field other place 4) :
    readU32 bytes offset = readU32 other place := by
  rw [readU32, same, readU32]

theorem readU32_stored (word : UInt32) (within : offset + 4 ≤ bytes.length) :
    readU32 (LittleEndian.overwrite bytes offset (u32Bytes word)) offset = word := by
  have length := length_u32Bytes word
  have self : LittleEndian.field (LittleEndian.overwrite bytes offset (u32Bytes word)) offset
      (u32Bytes word).length = u32Bytes word := LittleEndian.field_overwrite_self (length ▸ within)
  rw [length] at self
  rw [readU32, self, ofBytes_u32Bytes, UInt32.ofNat_toNat]

theorem readU32_other {word : UInt32} {other : Nat} (within : offset + 4 ≤ bytes.length)
    (apart : other + 4 ≤ offset ∨ offset + 4 ≤ other) :
    readU32 (LittleEndian.overwrite bytes offset (u32Bytes word)) other = readU32 bytes other := by
  have length := length_u32Bytes word
  exact readU32_congr (LittleEndian.field_overwrite_other (length ▸ within) (length ▸ apart))

end Reads

section Words

variable {bytes : List UInt8} {words : List Nat}

theorem length_storeZeroes (within : ∀ word ∈ words, word + 8 ≤ bytes.length) :
    (words.foldl (fun bytes word => LittleEndian.overwrite bytes word (u64Bytes 0)) bytes).length =
      bytes.length := by
  induction words generalizing bytes with
  | nil => rfl
  | cons word rest ih =>
    have kept : (LittleEndian.overwrite bytes word (u64Bytes 0)).length = bytes.length :=
      LittleEndian.length_overwrite (within word List.mem_cons_self)
    rw [List.foldl_cons, ih, kept]
    intro other mem
    rw [kept]
    exact within other (List.mem_cons_of_mem _ mem)

theorem field_storeZeroes_other (within : ∀ word ∈ words, word + 8 ≤ bytes.length)
    {other width : Nat} (apart : ∀ word ∈ words, other + width ≤ word ∨ word + 8 ≤ other) :
    LittleEndian.field
        (words.foldl (fun bytes word => LittleEndian.overwrite bytes word (u64Bytes 0)) bytes)
        other width = LittleEndian.field bytes other width := by
  induction words generalizing bytes with
  | nil => rfl
  | cons word rest ih =>
    have here := within word List.mem_cons_self
    have kept : (LittleEndian.overwrite bytes word (u64Bytes 0)).length = bytes.length :=
      LittleEndian.length_overwrite here
    rw [List.foldl_cons, ih]
    · exact LittleEndian.field_overwrite_other here (apart word List.mem_cons_self)
    · intro later mem
      rw [kept]
      exact within later (List.mem_cons_of_mem _ mem)
    · exact fun later mem => apart later (List.mem_cons_of_mem _ mem)

theorem field_storeZeroes_self (within : ∀ word ∈ words, word + 8 ≤ bytes.length) {stored : Nat}
    (mem : stored ∈ words)
    (apart : ∀ word ∈ words, word = stored ∨ stored + 8 ≤ word ∨ word + 8 ≤ stored) :
    LittleEndian.field
        (words.foldl (fun bytes word => LittleEndian.overwrite bytes word (u64Bytes 0)) bytes)
        stored 8 = u64Bytes 0 := by
  induction words generalizing bytes with
  | nil => exact absurd mem List.not_mem_nil
  | cons word rest ih =>
    have here := within word List.mem_cons_self
    have kept : (LittleEndian.overwrite bytes word (u64Bytes 0)).length = bytes.length :=
      LittleEndian.length_overwrite here
    have later : ∀ other ∈ rest,
        other + 8 ≤ (LittleEndian.overwrite bytes word (u64Bytes 0)).length := by
      intro other mem
      rw [kept]
      exact within other (List.mem_cons_of_mem _ mem)
    rw [List.foldl_cons]
    by_cases again : stored ∈ rest
    · exact ih later again fun other mem => apart other (List.mem_cons_of_mem _ mem)
    · -- the last store to the word
      have last : stored = word := (List.mem_cons.mp mem).resolve_right again
      rw [field_storeZeroes_other later, last]
      · exact LittleEndian.field_overwrite_self here
      · intro other after
        refine (apart other (List.mem_cons_of_mem _ after)).resolve_left fun same => ?_
        exact again (same ▸ after)

end Words

section Meaning

variable {bytes : List UInt8}

theorem slotOffset_lt (offset : Nat) (index : Fin ringCapacity) :
    offset + 128 ≤ SpscRing.slotOffset offset index ∧
      SpscRing.slotOffset offset index + 128 ≤ offset + ringSize := by
  have bound := index.isLt
  unfold SpscRing.slotOffset ringSize
  omega

theorem mem_initOffsets {offset word : Nat} (mem : word ∈ SpscRing.initOffsets offset) :
    word = offset ∨ word = offset + 64 ∨
      ∃ index : Fin ringCapacity, word = SpscRing.slotOffset offset index := by
  simp only [SpscRing.initOffsets, List.mem_cons, List.mem_map, List.mem_range] at mem
  rcases mem with same | same | ⟨index, less, rfl⟩
  · exact .inl same
  · exact .inr (.inl same)
  · exact .inr (.inr ⟨⟨index, less⟩, rfl⟩)

theorem initOffsets_within {offset word : Nat} (mem : word ∈ SpscRing.initOffsets offset) :
    offset ≤ word ∧ word + 8 ≤ offset + ringSize := by
  rcases mem_initOffsets mem with rfl | rfl | ⟨index, rfl⟩
  · unfold ringSize
    omega
  · unfold ringSize
    omega
  · have bound := slotOffset_lt offset index
    omega

theorem initOffsets_aligned {offset word : Nat} (mem : word ∈ SpscRing.initOffsets offset) :
    ∃ line, word = offset + 64 * line := by
  rcases mem_initOffsets mem with rfl | rfl | ⟨index, rfl⟩
  · exact ⟨0, rfl⟩
  · exact ⟨1, rfl⟩
  · refine ⟨2 + 2 * index, ?_⟩
    unfold SpscRing.slotOffset
    omega

theorem mem_slotOffset (offset : Nat) (index : Fin ringCapacity) :
    SpscRing.slotOffset offset index ∈ SpscRing.initOffsets offset :=
  List.mem_cons_of_mem _ (List.mem_cons_of_mem _
    (List.mem_map.mpr ⟨index, List.mem_range.mpr index.isLt, rfl⟩))

variable {offset : Nat}

theorem readU64_initBytes (within : offset + ringSize ≤ bytes.length) {word : Nat}
    (mem : word ∈ SpscRing.initOffsets offset) :
    readU64 (SpscRing.initBytes bytes offset) word = 0 := by
  have inside : ∀ word ∈ SpscRing.initOffsets offset, word + 8 ≤ bytes.length := by
    intro word mem
    have bound := initOffsets_within mem
    omega
  have stored : LittleEndian.field (SpscRing.initBytes bytes offset) word 8 = u64Bytes 0 := by
    refine field_storeZeroes_self inside mem fun other memOther => ?_
    obtain ⟨line, rfl⟩ := initOffsets_aligned mem
    obtain ⟨otherLine, rfl⟩ := initOffsets_aligned memOther
    omega
  rw [readU64, stored, ofBytes_u64Bytes]
  rfl

theorem field_initBytes_payload (within : offset + ringSize ≤ bytes.length)
    (index : Fin ringCapacity) :
    LittleEndian.field (SpscRing.initBytes bytes offset)
        (SpscRing.slotOffset offset index + 16) slotPayload =
      LittleEndian.field bytes (SpscRing.slotOffset offset index + 16) slotPayload := by
  refine field_storeZeroes_other (fun word mem => ?_) fun word mem => ?_
  · have bound := initOffsets_within mem
    omega
  · rcases mem_initOffsets mem with rfl | rfl | ⟨other, rfl⟩
    · unfold SpscRing.slotOffset
      omega
    · unfold SpscRing.slotOffset
      omega
    · unfold SpscRing.slotOffset slotPayload
      omega

theorem ofBytes_initBytes (within : offset + ringSize ≤ bytes.length) :
    SpscRing.ofBytes (SpscRing.initBytes bytes offset) offset =
      (SpscRing.ofBytes bytes offset).initInPlace := by
  have first : offset ∈ SpscRing.initOffsets offset := List.mem_cons_self
  have second : offset + 64 ∈ SpscRing.initOffsets offset :=
    List.mem_cons_of_mem _ List.mem_cons_self
  simp only [SpscRing.ofBytes, SpscRing.initInPlace, readU64_initBytes within first,
    readU64_initBytes within second, readU64_initBytes within (mem_slotOffset offset _),
    field_initBytes_payload within]

theorem field_initBytes_other (within : offset + ringSize ≤ bytes.length) {other width : Nat}
    (apart : other + width ≤ offset ∨ offset + ringSize ≤ other) :
    LittleEndian.field (SpscRing.initBytes bytes offset) other width =
      LittleEndian.field bytes other width := by
  refine field_storeZeroes_other (fun word mem => ?_) fun word mem => ?_
  · have bound := initOffsets_within mem
    omega
  · have bound := initOffsets_within mem
    omega

theorem ofBytes_congr {other : List UInt8}
    (same : ∀ place width, offset ≤ place → place + width ≤ offset + ringSize →
      LittleEndian.field other place width = LittleEndian.field bytes place width) :
    SpscRing.ofBytes other offset = SpscRing.ofBytes bytes offset := by
  -- every field that is read lies within the ring
  have cursors : 2 * 64 ≤ ringSize := by
    unfold ringSize
    omega
  have head : readU64 other offset = readU64 bytes offset :=
    readU64_congr (same _ 8 (by omega) (by omega))
  have tail : readU64 other (offset + 64) = readU64 bytes (offset + 64) :=
    readU64_congr (same _ 8 (by omega) (by omega))
  have seq (index : Fin ringCapacity) : readU64 other (SpscRing.slotOffset offset index) =
      readU64 bytes (SpscRing.slotOffset offset index) := by
    have bound := slotOffset_lt offset index
    exact readU64_congr (same _ 8 (by omega) (by omega))
  have payload (index : Fin ringCapacity) :
      LittleEndian.field other (SpscRing.slotOffset offset index + 16) slotPayload =
        LittleEndian.field bytes (SpscRing.slotOffset offset index + 16) slotPayload := by
    have bound := slotOffset_lt offset index
    exact same _ slotPayload (by omega) (by unfold slotPayload; omega)
  simp only [SpscRing.ofBytes, head, tail, seq, payload]

theorem busSize_eq : busSize = BusRing.offset .orders + ringSize := by
  simp only [busSize, BusRing.offset, ringSize]
  omega

theorem offset_within (which : BusRing) :
    64 ≤ which.offset ∧ which.offset + ringSize ≤ busSize := by
  rw [busSize_eq]
  cases which <;> simp only [BusRing.offset] <;> omega

theorem headerSize_le : 64 ≤ busSize := by
  have bound := offset_within .ticks
  omega

theorem offset_apart {which other : BusRing} (ne : other ≠ which) :
    other.offset + ringSize ≤ which.offset ∨ which.offset + ringSize ≤ other.offset := by
  cases which <;> cases other <;> simp only [BusRing.offset] <;> first | contradiction | omega

theorem ofBytes_extend (bytes : List UInt8) (count : Nat) :
    (BusFile.ofBytes (bytes ++ List.replicate count 0)).layout = (BusFile.ofBytes bytes).layout := by
  have payload (place offset : Nat) :
      (LittleEndian.field (bytes ++ List.replicate count 0) offset slotPayload).getD place 0 =
        (LittleEndian.field bytes offset slotPayload).getD place 0 := by
    obtain ⟨more, same⟩ := field_append_zero bytes count offset slotPayload
    rw [same, List.getD_eq_getElem?_getD, List.getD_eq_getElem?_getD, List.getElem?_append]
    split
    · rfl
    · next behind =>
      rw [List.getElem?_eq_none (Nat.not_lt.mp behind), List.getElem?_replicate]
      split <;> rfl
  simp only [BusFile.ofBytes, SpscRing.ofBytes, readU32_extend, readU64_extend, payload]

theorem ofBytes_zeroes (whole : busSize ≤ bytes.length) :
    (BusFile.ofBytes (OpenerPc.store .zero bytes)).layout = .zeroed := by
  -- whatever is read of the bus is zero
  have zeroes {place width : Nat} (inside : place + width ≤ busSize) :
      LittleEndian.field (OpenerPc.store .zero bytes) place width = List.replicate width 0 := by
    have size : (List.replicate busSize (0 : UInt8)).length = busSize := List.length_replicate
    have within : 0 + (List.replicate busSize (0 : UInt8)).length ≤ bytes.length := by
      rw [size, Nat.zero_add]
      exact whole
    have read := LittleEndian.field_overwrite_inside within (inside.trans size.ge)
    rw [Nat.zero_add] at read
    rw [OpenerPc.store, read, LittleEndian.field, List.drop_replicate, List.take_replicate]
    congr 1
    omega
  have enough := headerSize_le
  have header {place : Nat} (inside : place + 4 ≤ 64) :
      readU32 (OpenerPc.store .zero bytes) place = 0 := by
    rw [readU32, zeroes (inside.trans enough)]
    rfl
  have ring (which : BusRing) :
      SpscRing.ofBytes (OpenerPc.store .zero bytes) which.offset = .zeroed := by
    have bound := offset_within which
    have cursors : 2 * 64 ≤ ringSize := by
      unfold ringSize
      omega
    have head : readU64 (OpenerPc.store .zero bytes) which.offset = 0 := by
      rw [readU64, zeroes (by omega)]
      rfl
    have tail : readU64 (OpenerPc.store .zero bytes) (which.offset + 64) = 0 := by
      rw [readU64, zeroes (by omega)]
      rfl
    have seq (index : Fin ringCapacity) :
        readU64 (OpenerPc.store .zero bytes) (SpscRing.slotOffset which.offset index) = 0 := by
      have place := slotOffset_lt which.offset index
      rw [readU64, zeroes (by omega)]
      rfl
    have payload (index : Fin ringCapacity) :
        LittleEndian.field (OpenerPc.store .zero bytes)
          (SpscRing.slotOffset which.offset index + 16) slotPayload =
            List.replicate slotPayload 0 := by
      have place := slotOffset_lt which.offset index
      exact zeroes (by unfold slotPayload; omega)
    have blank : (Vector.ofFn fun place : Fin slotPayload =>
        (List.replicate slotPayload (0 : UInt8)).getD place 0) = Vector.replicate slotPayload 0 := by
      apply Vector.ext
      intro place less
      simp
    simp only [SpscRing.ofBytes, head, tail, seq, payload, blank]
    rfl
  have magic := header (Nat.le_add_left 4 60)
  have version := header (Nat.le_add_left 8 56)
  have ready := header (Nat.le_add_left 12 52)
  simp only [BusFile.ofBytes, magic, version, ready, ring]
  rfl

theorem ofBytes_storeHeader (whole : busSize ≤ bytes.length) {place : Nat} (word : UInt32)
    (aligned : place = 0 ∨ place = 4 ∨ place = 8) :
    BusFile.ofBytes (LittleEndian.overwrite bytes place (u32Bytes word)) =
      (BusFile.ofBytes bytes).setHeader
        ⟨if place = 0 then word else readU32 bytes 0, if place = 4 then word else readU32 bytes 4,
          if place = 8 then word else readU32 bytes 8⟩ := by
  have size := length_u32Bytes word
  have enough := headerSize_le
  have length : (LittleEndian.overwrite bytes place (u32Bytes word)).length = bytes.length :=
    LittleEndian.length_overwrite (by omega)
  have read {other : Nat} (alignedOther : other = 0 ∨ other = 4 ∨ other = 8) :
      readU32 (LittleEndian.overwrite bytes place (u32Bytes word)) other =
        if place = other then word else readU32 bytes other := by
    by_cases same : place = other
    · rw [if_pos same, ← same]
      exact readU32_stored word (by omega)
    · rw [if_neg same]
      exact readU32_other (by omega) (by omega)
  -- the rings lie behind the header
  have ring (which : BusRing) :
      SpscRing.ofBytes (LittleEndian.overwrite bytes place (u32Bytes word)) which.offset =
        SpscRing.ofBytes bytes which.offset := by
    have bound := offset_within which
    refine ofBytes_congr fun other width behind within => ?_
    exact LittleEndian.field_overwrite_other (by omega) (by omega)
  have magic := read (.inl rfl)
  have version := read (.inr (.inl rfl))
  have ready := read (.inr (.inr rfl))
  simp only [BusFile.ofBytes, BusFile.setHeader, length, ring, magic, version, ready]

theorem ofBytes_initRing (whole : busSize ≤ bytes.length) (which : BusRing) :
    BusFile.ofBytes (SpscRing.initBytes bytes which.offset) =
      (BusFile.ofBytes bytes).initRing which := by
  have bound := offset_within which
  have length : (SpscRing.initBytes bytes which.offset).length = bytes.length := by
    refine length_storeZeroes fun word mem => ?_
    have inside := initOffsets_within mem
    omega
  -- the header lies before the rings, and the other ring apart from this one
  have header {place : Nat} (inside : place + 4 ≤ 64) :
      readU32 (SpscRing.initBytes bytes which.offset) place = readU32 bytes place :=
    readU32_congr (field_initBytes_other (by omega) (by omega))
  have ring : (fun other : BusRing =>
      SpscRing.ofBytes (SpscRing.initBytes bytes which.offset) other.offset) =
        Function.update (fun other : BusRing => SpscRing.ofBytes bytes other.offset) which
          (SpscRing.ofBytes bytes which.offset).initInPlace := by
    funext other
    by_cases same : other = which
    · rw [same, Function.update_self]
      exact ofBytes_initBytes (by omega)
    · rw [Function.update_of_ne same]
      refine ofBytes_congr fun place width behind within => ?_
      refine field_initBytes_other (by omega) ?_
      have apart := offset_apart same
      omega
  have magic := header (Nat.le_add_left 4 60)
  have version := header (Nat.le_add_left 8 56)
  have ready := header (Nat.le_add_left 12 52)
  simp only [BusFile.ofBytes, length, magic, version, ready, ring]
  rfl

/-- The bytes after a step mean the file after the step. -/
theorem ofBytes_store {pc next : OpenerPc} {written : BusFile}
    (mapped : pc.sized = true → busSize ≤ bytes.length)
    (short : pc = .setLen → bytes.length < busSize)
    (step : openedStep (.ofBytes bytes) pc = some (written, next)) :
    written = .ofBytes (pc.store bytes) := by
  cases pc with
  | setLen =>
    cases step
    have less := short rfl
    have length : (OpenerPc.store .setLen bytes).length = busSize := by
      rw [OpenerPc.store, List.length_append, List.length_replicate]
      omega
    -- the bytes behind a short file read as zero before and after
    have layout : (BusFile.ofBytes (OpenerPc.store .setLen bytes)).layout = _ :=
      ofBytes_extend bytes (busSize - bytes.length)
    calc
      _ = BusFile.mk (OpenerPc.store .setLen bytes).length
          (BusFile.ofBytes (OpenerPc.store .setLen bytes)).layout := by rw [layout, length]
      _ = _ := rfl
  | zero =>
    cases step
    have whole := mapped rfl
    have size : (List.replicate busSize (0 : UInt8)).length = busSize := List.length_replicate
    have length : (OpenerPc.store .zero bytes).length = bytes.length :=
      LittleEndian.length_overwrite (by omega)
    calc
      _ = BusFile.mk (OpenerPc.store .zero bytes).length
          (BusFile.ofBytes (OpenerPc.store .zero bytes)).layout := by
            rw [ofBytes_zeroes whole, length]
            rfl
      _ = _ := rfl
  | initTicks =>
    cases step
    exact (ofBytes_initRing (mapped rfl) .ticks).symm
  | initOrders =>
    cases step
    exact (ofBytes_initRing (mapped rfl) .orders).symm
  | storeVersion =>
    cases step
    exact (ofBytes_storeHeader (mapped rfl) busVersion (.inr (.inl rfl))).symm
  | storeMagic =>
    cases step
    exact (ofBytes_storeHeader (mapped rfl) busMagic (.inl rfl)).symm
  | storeReady =>
    cases step
    exact (ofBytes_storeHeader (mapped rfl) 1 (.inr (.inr rfl))).symm
  | openFile | attached | failed => contradiction
  | readLen | map | loadMagic | loadVersion | spin | finish =>
    cases step
    rfl

/-- The length of the file that a lone call has come to this step with. -/
structure Fits (bytes : List UInt8) (pc : OpenerPc) : Prop where
  mapped : pc.sized = true → busSize ≤ bytes.length
  short : pc = .setLen → bytes.length < busSize

theorem fileStep_inv {pc next : OpenerPc} {after : List UInt8} (opened : pc ≠ .openFile)
    (step : fileStep bytes pc = some (after, next)) :
    ∃ written, openedStep (.ofBytes bytes) pc = some (written, next) ∧ after = pc.store bytes := by
  unfold fileStep at step
  split at step
  · exact absurd rfl opened
  · obtain ⟨⟨written, pc⟩, taken, made⟩ := Option.map_eq_some_iff.mp step
    cases made
    exact ⟨written, taken, rfl⟩

theorem openedStep_setLen {file written : BusFile} {pc : OpenerPc}
    (step : openedStep file pc = some (written, .setLen)) :
    pc = .readLen ∧ file.len < busSize := by
  cases openedStep_inv step with
  | short less => exact ⟨rfl, less⟩

/-- A lone call keeps to the lengths, so each of its steps is one of the file that its bytes
mean. -/
theorem Fits.step {pc next : OpenerPc} {after : List UInt8} (fits : Fits bytes pc)
    (opened : pc ≠ .openFile) (step : fileStep bytes pc = some (after, next)) :
    openedStep (.ofBytes bytes) pc = some (.ofBytes after, next) ∧ Fits after next := by
  obtain ⟨written, taken, rfl⟩ := fileStep_inv opened step
  have meant := ofBytes_store fits.mapped fits.short taken
  have length : (pc.store bytes).length = if pc = .setLen then busSize else bytes.length := by
    have kept := openedStep_len taken
    rw [meant] at kept
    exact kept
  refine ⟨meant ▸ taken, fun sized => ?_, ?_⟩
  · rw [length]
    split
    · exact Nat.le_refl _
    · next other =>
      -- a file that is mapped was found long enough, or has been made so
      rcases openedStep_sized taken sized with earlier | making | ⟨_, long⟩
      · exact fits.mapped earlier
      · exact absurd making other
      · exact long
  · rintro rfl
    obtain ⟨rfl, less⟩ := openedStep_setLen taken
    exact less

end Meaning

section Runs

variable {bytes after : List UInt8} {pc result : OpenerPc}

theorem Calls.run (calls : Calls bytes pc after result) (fits : Fits bytes pc) {n : Nat}
    {state : BusState n} {id : Fin n} (found : state.file = some (.ofBytes bytes))
    (at' : state.openers id = pc) :
    ∃ count final events,
      (bus n).runFrom state (List.replicate count (.opener id)) = some (final, events) ∧
        final.file = some (.ofBytes after) ∧ final.openers id = result := by
  induction calls generalizing state with
  | returned ended => exact ⟨0, state, [], rfl, found, at'⟩
  | @step bytes written after pc next result step rest ih =>
    -- the opening itself leaves the bytes alone
    by_cases opened : pc = .openFile
    · subst opened
      cases step
      have first : busStep state (.opener id) =
          some ({ state with file := some (.ofBytes bytes) }.setOpener id .readLen, []) := by
        simp only [busStep, if_pos at', found, Option.getD_some]
      have fits : Fits bytes .readLen := by
        constructor <;> intro impossible <;> contradiction
      have kept : ({ state with file := some (.ofBytes bytes) }.setOpener id .readLen).file =
          some (.ofBytes bytes) := rfl
      obtain ⟨count, final, events, run, ends⟩ :=
        ih fits kept BusState.setOpener_self
      exact ⟨count + 1, final, _, System.runFrom_cons first run, ends⟩
    · obtain ⟨taken, fits⟩ := fits.step opened step
      have first : busStep state (.opener id) = _ := busStep_opened found (at'.symm ▸ taken)
      have kept : ({ state with file := some (.ofBytes written) }.setOpener id next).file =
          some (.ofBytes written) := rfl
      obtain ⟨count, final, events, run, ends⟩ := ih fits kept BusState.setOpener_self
      exact ⟨count + 1, final, _, System.runFrom_cons first run, ends⟩

theorem Calls.unique {other : List UInt8} {ending : OpenerPc} (calls : Calls bytes pc after result)
    (again : Calls bytes pc other ending) : other = after ∧ ending = result := by
  have stays {bytes : List UInt8} {pc : OpenerPc}
      (ended : pc = .attached ∨ ∃ error, pc = .failed error) : fileStep bytes pc = none := by
    rcases ended with rfl | ⟨error, rfl⟩ <;> rfl
  induction calls with
  | returned ended =>
    cases again with
    | returned => exact ⟨rfl, rfl⟩
    | step step => simp [stays ended] at step
  | step step _ ih =>
    cases again with
    | returned ended => simp [stays ended] at step
    | step same rest =>
      cases step.symm.trans same
      exact ih rest

theorem fileStep_readLen (bytes : List UInt8) : fileStep bytes .readLen =
    some (bytes, if bytes.length < busSize then .setLen else .map false) := rfl

theorem fileStep_loadMagic (bytes : List UInt8) : fileStep bytes .loadMagic =
    some (bytes, if readU32 bytes 0 ≠ busMagic then .zero else .loadVersion) := rfl

theorem fileStep_loadVersion (bytes : List UInt8) : fileStep bytes .loadVersion =
    some (bytes, if readU32 bytes 4 ≠ busVersion then .failed (.invalidData (readU32 bytes 4))
      else .spin) := rfl

theorem fileStep_spin (bytes : List UInt8) : fileStep bytes .spin =
    some (bytes, if readU32 bytes 8 ≠ 1 then .spin else .finish) := rfl

/-- Past the length and the magic of a whole file nothing has been written. -/
theorem opens_loadVersion {result : OpenerPc} (whole : busSize ≤ bytes.length)
    (magic : readU32 bytes 0 = busMagic) (rest : Calls bytes .loadVersion after result) :
    Opens bytes after result := by
  have readLen : fileStep bytes .readLen = some (bytes, .map false) := by
    rw [fileStep_readLen, if_neg (Nat.not_lt.mpr whole)]
  have loadMagic : fileStep bytes .loadMagic = some (bytes, .loadVersion) := by
    rw [fileStep_loadMagic, if_neg (not_not.mpr magic)]
  exact .step rfl (.step readLen (.step rfl (.step loadMagic rest)))

theorem opens_refused (whole : busSize ≤ bytes.length) (magic : readU32 bytes 0 = busMagic)
    (version : readU32 bytes 4 ≠ busVersion) :
    Opens bytes bytes (.failed (.invalidData (readU32 bytes 4))) := by
  have loadVersion : fileStep bytes .loadVersion =
      some (bytes, .failed (.invalidData (readU32 bytes 4))) := by
    rw [fileStep_loadVersion, if_pos version]
  exact opens_loadVersion whole magic (.step loadVersion (.returned (.inr ⟨_, rfl⟩)))

theorem opens_attached (whole : busSize ≤ bytes.length) (magic : readU32 bytes 0 = busMagic)
    (version : readU32 bytes 4 = busVersion) (ready : readU32 bytes 8 = 1) :
    Opens bytes bytes .attached := by
  have loadVersion : fileStep bytes .loadVersion = some (bytes, .spin) := by
    rw [fileStep_loadVersion, if_neg (not_not.mpr version)]
  have spin : fileStep bytes .spin = some (bytes, .finish) := by
    rw [fileStep_spin, if_neg (not_not.mpr ready)]
  exact opens_loadVersion whole magic
    (.step loadVersion (.step spin (.step rfl (.returned (.inl rfl)))))

/-- What the cold start leaves in a file. -/
def coldStart (bytes : List UInt8) : List UInt8 :=
  OpenerPc.store .storeReady (OpenerPc.store .storeMagic (OpenerPc.store .storeVersion
    (OpenerPc.store .initOrders (OpenerPc.store .initTicks (OpenerPc.store .zero bytes)))))

theorem calls_finish (bytes : List UInt8) : Calls bytes .finish bytes .attached :=
  have finish : fileStep bytes .finish = some (bytes, .attached) := rfl
  .step finish (.returned (.inl rfl))

theorem calls_zero (bytes : List UInt8) : Calls bytes .zero (coldStart bytes) .attached :=
  .step rfl (.step rfl (.step rfl (.step rfl (.step rfl (.step rfl (calls_finish _))))))

theorem store_zero (whole : bytes.length = busSize) :
    OpenerPc.store .zero bytes = List.replicate busSize 0 := by
  rw [OpenerPc.store]
  exact LittleEndian.overwrite_all (by rw [whole, List.length_replicate])

/-- Whatever a file held that was too short, the call leaves the same in it. -/
theorem opens_short (short : bytes.length < busSize) :
    Opens bytes (coldStart (List.replicate busSize 0)) .attached := by
  have readLen : fileStep bytes .readLen = some (bytes, .setLen) := by
    rw [fileStep_readLen, if_pos short]
  have length : (OpenerPc.store .setLen bytes).length = busSize := by
    rw [OpenerPc.store, List.length_append, List.length_replicate]
    omega
  have cold := calls_zero (OpenerPc.store .setLen bytes)
  have same : coldStart (OpenerPc.store .setLen bytes) =
      coldStart (List.replicate busSize 0) := by
    rw [coldStart, coldStart, store_zero length, store_zero List.length_replicate]
  rw [same] at cold
  exact .step rfl (.step readLen (.step rfl (.step rfl cold)))

/-- What an existing bus may expect of `open_or_create`. -/
structure Undamaged (bytes : List UInt8) : Prop where
  refused : readU32 bytes 0 = busMagic → readU32 bytes 4 ≠ busVersion →
    Opens bytes bytes (.failed (.invalidData (readU32 bytes 4)))
  attached : busSize ≤ bytes.length → readU32 bytes 0 = busMagic →
    readU32 bytes 4 = busVersion → readU32 bytes 8 = 1 → Opens bytes bytes .attached

theorem not_undamaged_of_short (short : bytes.length < busSize)
    (magic : readU32 bytes 0 = busMagic) (version : readU32 bytes 4 ≠ busVersion) :
    ¬ Undamaged bytes := by
  intro undamaged
  have impossible := ((undamaged.refused magic version).unique (opens_short short)).2
  contradiction

/-- An existing bus is left alone if and only if it is not a short one of another version. -/
theorem undamaged_iff (bytes : List UInt8) : Undamaged bytes ↔
    ¬ (bytes.length < busSize ∧ readU32 bytes 0 = busMagic ∧ readU32 bytes 4 ≠ busVersion) := by
  constructor
  · rintro undamaged ⟨short, magic, version⟩
    exact not_undamaged_of_short short magic version undamaged
  · intro other
    refine ⟨fun magic version => ?_, opens_attached⟩
    refine opens_refused (Nat.not_lt.mp fun short => ?_) magic version
    exact other ⟨short, magic, version⟩

/-- A header of version 2 that nothing follows. -/
theorem older_bus_wiped : ¬ Undamaged (u32Bytes busMagic ++ u32Bytes 2 ++ u32Bytes 1) := by
  refine not_undamaged_of_short ?_ (by decide) (by decide)
  have enough := headerSize_le
  simp only [List.length_append, length_u32Bytes]
  omega

end Runs

end TradingPipeline.Shmbus
