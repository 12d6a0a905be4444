import Mathlib.Algebra.Order.Ring.Nat
import TradingPipeline.Foundation.Trim

/-! Decimal numerals in a text. -/

set_option autoImplicit false

namespace TradingPipeline.Foundation

theorem le_ofDigitChars (digits : List Char) (initial : Nat) :
    initial ≤ Nat.ofDigitChars 10 digits initial := by
  induction digits generalizing initial with
  | nil => exact Nat.le_of_eq Nat.ofDigitChars_nil.symm
  | cons char rest ih =>
    rw [Nat.ofDigitChars_cons]
    exact Nat.le_trans (by omega) (ih _)

theorem digit_code {char : Char} (digit : char.isDigit = true) :
    48 ≤ char.toNat ∧ char.toNat ≤ 57 := by
  simp only [Char.isDigit, ge_iff_le, Bool.and_eq_true, decide_eq_true_eq] at digit
  exact ⟨digit.1, digit.2⟩

/-- At least one digit; leading zeros are allowed. -/
@[ext] structure Numeral where
  digits : List Char
  nonempty : digits ≠ []
  decimal : ∀ char ∈ digits, char.isDigit = true
  deriving DecidableEq

namespace Numeral

def value (numeral : Numeral) : Nat := Nat.ofDigitChars 10 numeral.digits 0

/-- The shortest numeral of a number. -/
def ofNat (value : Nat) : Numeral :=
  ⟨Nat.toDigits 10 value, Nat.toDigits_ne_nil,
    fun _ mem => Nat.isDigit_of_mem_toDigits (by decide) (by decide) mem⟩

@[simp] theorem value_ofNat (number : Nat) : (ofNat number).value = number :=
  Nat.ofDigitChars_ten_toDigits

variable {blank : Char → Bool} {text : List Char} {first second : Numeral}

theorem fresh (numeral : Numeral) {sep : Char} (other : sep.isDigit = false) :
    sep ∉ numeral.digits := by
  intro mem
  rw [numeral.decimal sep mem] at other
  contradiction

section Blanks

variable (solid : ∀ char : Char, char.isDigit = true → blank char = false)

include solid

theorem trim_eq {numeral : Numeral} (padded : Padded blank text numeral.digits) :
    trim blank text = numeral.digits := by
  rw [trim_of_padded padded]
  exact trim_of_solid fun char mem => solid char (numeral.decimal char mem)

theorem padded_unique (padded : Padded blank text first.digits)
    (again : Padded blank text second.digits) : first = second := by
  ext1
  rw [← trim_eq solid padded, ← trim_eq solid again]

theorem trim_ne_nil {numeral : Numeral} (padded : Padded blank text numeral.digits) :
    trim blank text ≠ [] := by
  rw [trim_eq solid padded]
  exact numeral.nonempty

end Blanks
end Numeral

end TradingPipeline.Foundation
