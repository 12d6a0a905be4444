import Mathlib.Algebra.Group.Nat.Defs
import Mathlib.Data.Nat.Basic

/-! Little-endian words in byte strings, fields at fixed offsets, and writes to them. -/

set_option autoImplicit false

namespace TradingPipeline.Foundation.LittleEndian

/-- The low `width` bytes of a number, least significant first. -/
def toBytes : Nat → Nat → List UInt8
  | 0, _ => []
  | width + 1, value => UInt8.ofNat value :: toBytes width (value / 256)

def ofBytes : List UInt8 → Nat
  | [] => 0
  | byte :: rest => byte.toNat + 256 * ofBytes rest

@[simp] theorem length_toBytes (width value : Nat) : (toBytes width value).length = width := by
  induction width generalizing value with
  | zero => rfl
  | succ width ih => simp only [toBytes, List.length_cons, ih]

theorem ofBytes_lt (bytes : List UInt8) : ofBytes bytes < 256 ^ bytes.length := by
  induction bytes with
  | nil => exact Nat.one_pos
  | cons byte rest ih =>
    have bound := byte.toNat_lt
    simp only [ofBytes, List.length_cons, Nat.pow_succ]
    omega

theorem ofBytes_toBytes (width value : Nat) : ofBytes (toBytes width value) = value % 256 ^ width := by
  induction width generalizing value with
  | zero => simp [toBytes, ofBytes, Nat.mod_one]
  | succ width ih =>
    rw [toBytes, ofBytes, ih, Nat.pow_succ, Nat.mul_comm (256 ^ width), Nat.mod_mul]
    simp [UInt8.toNat_ofNat']

theorem toBytes_ofBytes (bytes : List UInt8) : toBytes bytes.length (ofBytes bytes) = bytes := by
  induction bytes with
  | nil => rfl
  | cons byte rest ih =>
    have bound := byte.toNat_lt
    have low : UInt8.ofNat (byte.toNat + 256 * ofBytes rest) = byte := by
      apply UInt8.toNat_inj.mp
      simp only [UInt8.toNat_ofNat']
      omega
    have high : (byte.toNat + 256 * ofBytes rest) / 256 = ofBytes rest := by omega
    simp only [ofBytes, List.length_cons, toBytes, low, high, ih]

/-- The `width` bytes at `offset`. -/
def field (bytes : List UInt8) (offset width : Nat) : List UInt8 :=
  (bytes.drop offset).take width

theorem length_field {bytes : List UInt8} {offset width : Nat}
    (within : offset + width ≤ bytes.length) : (field bytes offset width).length = width := by
  simp only [field, List.length_take, List.length_drop]
  omega

theorem field_skip {front : List UInt8} {offset : Nat} (behind : front.length ≤ offset)
    (rest : List UInt8) (width : Nat) :
    field (front ++ rest) offset width = field rest (offset - front.length) width := by
  rw [field, field, List.drop_append, List.drop_eq_nil_of_le behind, List.nil_append]

theorem field_here {front : List UInt8} {width : Nat} (whole : front.length = width)
    (rest : List UInt8) : field (front ++ rest) 0 width = front := by
  subst whole
  simp [field]

theorem getElem?_field (bytes : List UInt8) (offset width place : Nat) :
    (field bytes offset width)[place]? = if place < width then bytes[offset + place]? else none := by
  rw [field, List.getElem?_take, List.getElem?_drop]

section Overwrite

variable {bytes data : List UInt8} {offset : Nat}

/-- The bytes with others written over them at an offset. -/
def overwrite (bytes : List UInt8) (offset : Nat) (data : List UInt8) : List UInt8 :=
  bytes.take offset ++ data ++ bytes.drop (offset + data.length)

theorem length_overwrite (within : offset + data.length ≤ bytes.length) :
    (overwrite bytes offset data).length = bytes.length := by
  simp only [overwrite, List.length_append, List.length_take, List.length_drop]
  omega

theorem getElem?_overwrite (within : offset + data.length ≤ bytes.length) (place : Nat) :
    (overwrite bytes offset data)[place]? =
      if offset ≤ place ∧ place < offset + data.length then data[place - offset]?
      else bytes[place]? := by
  have front : (bytes.take offset).length = offset := by
    rw [List.length_take]
    omega
  rw [overwrite, List.append_assoc, List.getElem?_append, front]
  split
  · next before => rw [List.getElem?_take, if_pos before, if_neg (by omega)]
  · next behind =>
    rw [List.getElem?_append]
    split
    · next inside => rw [if_pos (by omega)]
    · next after =>
      rw [List.getElem?_drop, if_neg (by omega)]
      congr 1
      omega

theorem field_overwrite_inside (within : offset + data.length ≤ bytes.length) {place width : Nat}
    (inside : place + width ≤ data.length) :
    field (overwrite bytes offset data) (offset + place) width = field data place width := by
  apply List.ext_getElem?
  intro index
  rw [getElem?_field, getElem?_field, getElem?_overwrite within]
  split
  · next less =>
    rw [if_pos (by omega)]
    congr 1
    omega
  · rfl

theorem field_overwrite_self (within : offset + data.length ≤ bytes.length) :
    field (overwrite bytes offset data) offset data.length = data := by
  have here := field_overwrite_inside within (Nat.le_of_eq (Nat.zero_add data.length))
  rw [Nat.add_zero] at here
  rw [here, field, List.drop_zero, List.take_length]

theorem field_overwrite_other (within : offset + data.length ≤ bytes.length) {other width : Nat}
    (apart : other + width ≤ offset ∨ offset + data.length ≤ other) :
    field (overwrite bytes offset data) other width = field bytes other width := by
  apply List.ext_getElem?
  intro place
  rw [getElem?_field, getElem?_field, getElem?_overwrite within]
  split
  · next inside => rw [if_neg (by omega)]
  · rfl

theorem overwrite_all (whole : bytes.length = data.length) : overwrite bytes 0 data = data := by
  rw [overwrite, List.take_zero, List.nil_append, Nat.zero_add, List.drop_eq_nil_of_le,
    List.append_nil]
  exact Nat.le_of_eq whole

end Overwrite

end TradingPipeline.Foundation.LittleEndian
