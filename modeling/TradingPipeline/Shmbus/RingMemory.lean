import TradingPipeline.Foundation.Cursor
import TradingPipeline.Shmbus.Ring

/-! The shared memory of a ring that holds a sequence of unread messages.

Counts are unbounded naturals; the stored words are their residues, so nothing here limits
the length of a run.
-/

set_option autoImplicit false

namespace TradingPipeline.Shmbus

open Foundation

/-- The slot of the message with running number `count`. -/
def slotAt (count : Nat) : Fin ringCapacity := Cursor.cell ringCapacity count

theorem slotIndex_ofNat (count : Nat) : slotIndex (UInt64.ofNat count) = slotAt count := by
  apply Fin.ext
  simp only [slotIndex, slotAt, Cursor.cell, and_ringMask, UInt64.toNat_ofNat']
  exact Nat.mod_mod_of_dvd count (by decide)

namespace SpscRing

variable (ring : SpscRing) (index other : Fin ringCapacity) (offset : Fin slotPayload)
  (byte : UInt8) (seq : UInt64)

@[simp] theorem writeByte_tail : (ring.writeByte index offset byte).tail = ring.tail := rfl

@[simp] theorem writeByte_head : (ring.writeByte index offset byte).head = ring.head := rfl

@[simp] theorem writeByte_seq :
    ((ring.writeByte index offset byte).slots other).seq = (ring.slots other).seq := by
  by_cases same : other = index
  · subst same; simp [writeByte]
  · simp [writeByte, Function.update_of_ne same]

theorem writeByte_get (position : Fin slotPayload) :
    ((ring.writeByte index offset byte).slots index).payload.get position =
      if position = offset then byte else (ring.slots index).payload.get position := by
  have get (payload : Payload) : payload.get position = payload[position.val] := rfl
  simp only [writeByte, Function.update_self, get, Vector.getElem_set, Fin.val_inj, eq_comm]

theorem writeByte_other (different : other ≠ index) :
    (ring.writeByte index offset byte).slots other = ring.slots other := by
  simp [writeByte, Function.update_of_ne different]

@[simp] theorem storeSeq_tail : (ring.storeSeq index seq).tail = ring.tail := rfl

@[simp] theorem storeSeq_head : (ring.storeSeq index seq).head = ring.head := rfl

@[simp] theorem storeSeq_self : ((ring.storeSeq index seq).slots index).seq = seq := by
  simp [storeSeq]

theorem storeSeq_other (different : other ≠ index) :
    (ring.storeSeq index seq).slots other = ring.slots other := by
  simp [storeSeq, Function.update_of_ne different]

@[simp] theorem storeSeq_payload :
    ((ring.storeSeq index seq).slots other).payload = (ring.slots other).payload := by
  by_cases same : other = index
  · subst same; simp [storeSeq]
  · simp [storeSeq, Function.update_of_ne same]

end SpscRing

/-- The shared memory while `taken` messages have been consumed and `items` are unread. -/
structure Stored (ring : SpscRing) (taken : Nat) (items : List Payload) : Prop where
  tail : ring.tail = .ofNat taken
  room : items.length ≤ ringCapacity
  /-- The messages of the last lap carry their own sequence numbers. -/
  lap : ∀ count, count < taken + items.length → taken + items.length ≤ count + ringCapacity →
    (ring.slots (slotAt count)).seq = .ofNat (count + 1)
  /-- During the first lap the slots ahead of the producer are still untouched. -/
  fresh : ∀ index : Fin ringCapacity, taken + items.length ≤ index →
    (ring.slots index).seq = 0
  payloads : ∀ position (unread : position < items.length),
    (ring.slots (slotAt (taken + position))).payload = items[position]

namespace Stored

variable {ring : SpscRing} {taken : Nat} {items : List Payload}

theorem init (memory : SpscRing) : Stored memory.initInPlace 0 [] where
  tail := rfl
  room := Nat.zero_le _
  lap count lt _ := absurd lt (Nat.not_lt_zero count)
  fresh _ _ := rfl
  payloads position unread := absurd unread (Nat.not_lt_zero position)

/-- The full test of `try_publish` is exact. -/
theorem full_iff (stored : Stored ring taken items) :
    UInt64.ofNat (taken + items.length) - ring.tail ≥ UInt64.ofNat ringCapacity ↔
      items.length = ringCapacity := by
  have room := stored.room
  have distance := Cursor.toNat_distance taken (taken + items.length) (by omega)
    (by simp only [ringCapacity] at room; omega)
  have capacity : (UInt64.ofNat ringCapacity).toNat = ringCapacity := rfl
  rw [stored.tail, ge_iff_le, UInt64.le_iff_toNat_le, distance, capacity]
  omega

/-- The seq test of `try_consume` is exact: a stale sequence number of an earlier lap
never equals the expected one. -/
theorem seq_eq_iff (stored : Stored ring taken items) :
    (ring.slots (slotAt taken)).seq = UInt64.ofNat taken + 1 ↔ items ≠ [] := by
  have room := stored.room
  rw [Cursor.ofNat_succ]
  cases items with
  | cons first rest =>
    simp only [List.length_cons] at room
    have ready := stored.lap taken (by simp) (by simp only [List.length_cons]; omega)
    simp [ready]
  | nil =>
    simp only [ne_eq, not_true_eq_false, iff_false]
    -- the slot was never written, or holds the message of the lap before
    by_cases firstLap : taken < ringCapacity
    · have untouched := stored.fresh (slotAt taken)
        (by simp [slotAt, Cursor.cell, Nat.mod_eq_of_lt firstLap])
      rw [untouched]
      intro same
      have := Cursor.ofNat_inj 0 (taken + 1) (by omega)
        (by simp only [ringCapacity] at firstLap; omega) same.symm
      omega
    · have sameSlot : slotAt taken = slotAt (taken - ringCapacity) := by
        have := Cursor.cell_add_capacity ringCapacity (taken - ringCapacity)
        rwa [Nat.sub_add_cancel (by omega)] at this
      have stale := stored.lap (taken - ringCapacity)
        (by simp only [List.length_nil, ringCapacity] at *; omega)
        (by simp only [List.length_nil]; omega)
      rw [sameSlot, stale]
      intro same
      have := Cursor.ofNat_inj (taken - ringCapacity + 1) (taken + 1) (by omega)
        (by simp only [ringCapacity] at *; omega) same.symm
      simp only [ringCapacity] at *
      omega

theorem slotAt_ne (free : items.length < ringCapacity) (position : Nat)
    (unread : position < items.length) :
    slotAt (taken + items.length) ≠ slotAt (taken + position) :=
  Cursor.cell_ne (by omega) (by omega)

theorem writeByte (stored : Stored ring taken items) (free : items.length < ringCapacity)
    (offset : Fin slotPayload) (byte : UInt8) :
    Stored (ring.writeByte (slotAt (taken + items.length)) offset byte) taken items where
  tail := stored.tail
  room := stored.room
  lap count lt near := by
    rw [SpscRing.writeByte_seq]
    exact stored.lap count lt near
  fresh index ahead := by
    rw [SpscRing.writeByte_seq]
    exact stored.fresh index ahead
  payloads position unread := by
    rw [SpscRing.writeByte_other _ _ _ _ _ (slotAt_ne free position unread).symm]
    exact stored.payloads position unread

theorem publish (stored : Stored ring taken items) (free : items.length < ringCapacity)
    {item : Payload} (written : (ring.slots (slotAt (taken + items.length))).payload = item) :
    Stored (ring.storeSeq (slotAt (taken + items.length)) (.ofNat (taken + items.length + 1)))
      taken (items ++ [item]) where
  tail := stored.tail
  room := by simpa using Nat.succ_le_of_lt free
  lap count lt near := by
    simp only [List.length_append, List.length_singleton] at lt near
    -- the stored slot is the one of the new message alone
    by_cases last : count = taken + items.length
    · subst last
      rw [SpscRing.storeSeq_self]
    · have different : slotAt count ≠ slotAt (taken + items.length) :=
        (Cursor.cell_ne (by omega) (by omega)).symm
      rw [SpscRing.storeSeq_other _ _ _ _ different]
      exact stored.lap count (by omega) (by omega)
  fresh index ahead := by
    simp only [List.length_append, List.length_singleton] at ahead
    have different : index ≠ slotAt (taken + items.length) := by
      intro same
      have value := congrArg Fin.val same
      simp only [slotAt, Cursor.cell] at value
      have := Nat.mod_le (taken + items.length) ringCapacity
      omega
    rw [SpscRing.storeSeq_other _ _ _ _ different]
    exact stored.fresh index (by omega)
  payloads position unread := by
    rw [SpscRing.storeSeq_payload]
    by_cases earlier : position < items.length
    · rw [List.getElem_append_left earlier]
      exact stored.payloads position earlier
    · simp only [List.length_append, List.length_singleton] at unread
      have last : position = items.length := by omega
      subst last
      simp [written]

theorem take {first : Payload} (stored : Stored ring taken (first :: items)) :
    Stored { ring with tail := .ofNat (taken + 1) } (taken + 1) items where
  tail := rfl
  room := by
    have := stored.room
    simp only [List.length_cons] at this
    omega
  lap count lt near := stored.lap count (by simp only [List.length_cons]; omega)
    (by simp only [List.length_cons]; omega)
  fresh index ahead := stored.fresh index (by simp only [List.length_cons]; omega)
  payloads position unread := by
    have later := stored.payloads (position + 1) (by simpa using unread)
    rw [show taken + 1 + position = taken + (position + 1) by omega]
    simpa using later

end Stored

end TradingPipeline.Shmbus
