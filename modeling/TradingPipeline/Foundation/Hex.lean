import Mathlib.Algebra.Order.Ring.Nat
import Mathlib.Tactic.Ring

/-! Hexadecimal numerals, read and written. -/

set_option autoImplicit false

namespace TradingPipeline.Foundation

def hexDigit (char : Char) : Option Nat :=
  if '0' ≤ char ∧ char ≤ '9' then some (char.toNat - '0'.toNat)
  else if 'a' ≤ char ∧ char ≤ 'f' then some (char.toNat - 'a'.toNat + 10)
  else if 'A' ≤ char ∧ char ≤ 'F' then some (char.toNat - 'A'.toNat + 10)
  else none

/-- The value of the digits behind those that were read before. -/
def hexFrom (before : Nat) (digits : List Char) : Option Nat :=
  digits.foldlM (fun value char => (hexDigit char).map (16 * value + ·)) before

/-- At least one digit, and nothing else. -/
def hexValue (text : List Char) : Option Nat := if text = [] then none else hexFrom 0 text

/-- `format(value, 'x')`. -/
def hexFormat (value : Nat) : List Char := Nat.toDigits 16 value

theorem hexDigit_digitChar {digit : Nat} (small : digit < 16) :
    hexDigit digit.digitChar = some digit := by
  revert digit
  decide

theorem hexFrom_append (before : Nat) (front rest : List Char) :
    hexFrom before (front ++ rest) = (hexFrom before front).bind fun value => hexFrom value rest :=
  List.foldlM_append

theorem hexFrom_cons (before : Nat) (char : Char) (rest : List Char) :
    hexFrom before (char :: rest) =
      ((hexDigit char).map (16 * before + ·)).bind fun value => hexFrom value rest :=
  List.foldlM_cons

theorem isSome_hexDigit {before value : Nat} {digits : List Char} {char : Char}
    (read : hexFrom before digits = some value) (mem : char ∈ digits) : (hexDigit char).isSome := by
  induction digits generalizing before with
  | nil => contradiction
  | cons first rest ih =>
    rw [hexFrom_cons, Option.bind_eq_some_iff] at read
    obtain ⟨next, digit, read⟩ := read
    rcases List.mem_cons.mp mem with rfl | later
    · obtain ⟨_, is, _⟩ := Option.map_eq_some_iff.mp digit
      rw [is]
      rfl
    · exact ih read later

/-- What was read before counts for each digit that follows. -/
theorem hexFrom_eq_map (before : Nat) (digits : List Char) :
    hexFrom before digits = (hexFrom 0 digits).map (before * 16 ^ digits.length + ·) := by
  induction digits generalizing before with
  | nil => simp [hexFrom]
  | cons char rest ih =>
    rw [hexFrom_cons, hexFrom_cons]
    cases hexDigit char with
    | none => rfl
    | some digit =>
      simp only [Option.map_some, Option.bind_some]
      rw [ih (16 * before + digit), ih (16 * 0 + digit), Option.map_map]
      congr 1
      funext value
      simp only [Function.comp_apply, List.length_cons]
      ring

theorem hexFrom_zeros (count : Nat) (digits : List Char) :
    hexFrom 0 (List.replicate count '0' ++ digits) = hexFrom 0 digits := by
  induction count with
  | zero => rfl
  | succ count ih =>
    have zero : (hexDigit '0').map (16 * 0 + ·) = some 0 := by decide
    rw [List.replicate_succ, List.cons_append, hexFrom_cons, zero, Option.bind_some, ih]

theorem hexFrom_hexFormat (value : Nat) : hexFrom 0 (hexFormat value) = some value := by
  induction value using Nat.strongRecOn with
  | ind value ih =>
    unfold hexFormat at ih ⊢
    rcases Nat.lt_or_ge value 16 with small | large
    · rw [Nat.toDigits_of_lt_base small, hexFrom_cons, hexDigit_digitChar small]
      simp [hexFrom]
    · -- the last digit is the remainder
      rw [Nat.toDigits_of_base_le (by decide) large, hexFrom_append, ih (value / 16) (by omega),
        Option.bind_some, hexFrom_cons, hexDigit_digitChar (Nat.mod_lt _ (by decide)),
        Option.map_some, Nat.div_add_mod]
      rfl

theorem hexFormat_ne_nil (value : Nat) : hexFormat value ≠ [] := Nat.toDigits_ne_nil

theorem hexValue_hexFormat (value : Nat) : hexValue (hexFormat value) = some value := by
  rw [hexValue, if_neg (hexFormat_ne_nil value), hexFrom_hexFormat]

end TradingPipeline.Foundation
