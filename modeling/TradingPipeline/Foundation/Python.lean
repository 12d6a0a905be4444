import TradingPipeline.Foundation.Hex
import TradingPipeline.Foundation.Memory
import TradingPipeline.Foundation.Numerals

/-! Built-in functions of Python, on texts that are lists of characters.

What memory answers when a list has to grow is a parameter; what numbers, texts and sets need is
granted.
-/

set_option autoImplicit false

namespace TradingPipeline.Foundation.Python

inductive Error where
  | valueError
  | memoryError
  deriving DecidableEq

/-- `str.isspace`, of one character. -/
def isSpace (char : Char) : Bool :=
  let code := char.toNat
  (0x9 ≤ code && code ≤ 0xD) || (0x1C ≤ code && code ≤ 0x20) || code = 0x85 || code = 0xA0 ||
    code = 0x1680 || (0x2000 ≤ code && code ≤ 0x200A) || code = 0x2028 || code = 0x2029 ||
    code = 0x202F || code = 0x205F || code = 0x3000

/-- `str.strip`. -/
abbrev strip (text : List Char) : List Char := trim isSpace text

/-- `int(text)` for a text without a minus sign and with no digits but those of ASCII. The limit is
`sys.get_int_max_str_digits()`, where the version has one. -/
def int (limit : Option Nat) (text : List Char) : Except Error Nat :=
  let text := strip text
  let groups := (if text.head? = some '+' then text.tail else text).splitOn '_'
  if groups.all fun group => group ≠ [] && group.all Char.isDigit then
    if ∃ most ∈ limit, most < groups.flatten.length then .error .valueError
    else .ok (Nat.ofDigitChars 10 groups.flatten 0)
  else .error .valueError

/-- `value << shift`. -/
def shiftLeft (value shift : Int) : Except Error Int :=
  if shift < 0 then .error .valueError else .ok (value <<< shift.toNat)

/-- `format(value, 'x')`. -/
def formatHex (value : Int) : List Char :=
  if value < 0 then '-' :: hexFormat value.natAbs else hexFormat value.toNat

/-- `range(start, stop)`. -/
def range (start stop : Nat) : List Nat := List.range' start (stop - start)

/-- `list.extend`, and with one item `list.append`. How much more than is needed a list asks for is
left to its memory. -/
def extend {α : Type} (memory : Memory) (list : Grown α) (more : List α) :
    Except Error (Grown α) :=
  (list.extend .exact memory more).mapError fun _ => .memoryError

section Int

variable {limit : Option Nat} {text : List Char} {value : Nat}

theorem isSpace_digit (char : Char) (digit : char.isDigit = true) : isSpace char = false := by
  have code := digit_code digit
  rw [← Bool.not_eq_true]
  intro blank
  simp only [isSpace, Bool.or_eq_true, Bool.and_eq_true, decide_eq_true_eq] at blank
  omega

theorem int_dropWhile (limit : Option Nat) (text : List Char) :
    int limit (text.dropWhile isSpace) = int limit text := by
  rw [int, int, strip, trim_dropWhile]

theorem int_rdropWhile (limit : Option Nat) (text : List Char) :
    int limit (text.rdropWhile isSpace) = int limit text := by
  rw [int, int, strip, trim_rdropWhile]

/-- No plus sign and no underscore. -/
def Plain (text : List Char) : Prop := '+' ∉ text ∧ '_' ∉ text

theorem int_eq_ok (plain : Plain text) : int limit text = .ok value ↔
    ∃ numeral : Numeral, Padded isSpace text numeral.digits ∧
      (∀ most ∈ limit, numeral.digits.length ≤ most) ∧ numeral.value = value := by
  have within := (padded_trim isSpace text).isInfix.subset
  have unsigned : (strip text).head? ≠ some '+' := by
    intro sign
    exact plain.1 (within (List.mem_of_mem_head? sign))
  have single : (strip text).splitOn '_' = [strip text] :=
    List.splitOn_eq_singleton fun mem => plain.2 (within mem)
  simp only [int, unsigned, if_false, single, List.all_cons, List.all_nil, Bool.and_true,
    Bool.and_eq_true, decide_eq_true_eq, List.all_eq_true, List.flatten_singleton]
  constructor
  · intro read
    split at read
    · next number =>
      split at read
      · contradiction
      · next short =>
        cases read
        refine ⟨⟨strip text, number.1, number.2⟩, padded_trim isSpace text, ?_, rfl⟩
        exact fun most is => Nat.le_of_not_lt fun long => short ⟨most, is, long⟩
    · contradiction
  · rintro ⟨numeral, padded, short, rfl⟩
    have same := Numeral.trim_eq isSpace_digit padded
    rw [strip, same, if_pos ⟨numeral.nonempty, numeral.decimal⟩, if_neg, Numeral.value]
    rintro ⟨most, is, long⟩
    exact absurd (short most is) (Nat.not_le.mpr long)

end Int

section Bits

theorem shiftLeft_ofNat (value shift : Nat) :
    shiftLeft value shift = .ok ((value <<< shift : Nat) : Int) := rfl

theorem formatHex_ofNat (value : Nat) : formatHex value = hexFormat value := rfl

end Bits

end TradingPipeline.Foundation.Python
