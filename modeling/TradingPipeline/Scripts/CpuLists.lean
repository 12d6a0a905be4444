import TradingPipeline.Foundation.Python

/-! The CPU lists of the scripts: what `expand_list` of `run-bench.sh` makes of a text, and what
can be listed in one. -/

set_option autoImplicit false

namespace TradingPipeline.Scripts

open Foundation
open Foundation.Python (strip isSpace isSpace_digit int_dropWhile int_rdropWhile int_eq_ok Plain)

/-- What a part of the list that is not empty stands for. -/
def partCpus (limit : Option Nat) (part : List Char) : Except Python.Error (List Nat) :=
  if '-' ∈ part then
    match part.splitOn '-' with
    | [a, b] => do
      let lo ← Python.int limit a
      let hi ← Python.int limit b
      .ok (Python.range lo (hi + 1))
    | _ => .error .valueError
  else do
    let cpu ← Python.int limit part
    .ok [cpu]

/-- The body of the loop of `expand_list`. -/
def expandPart (limit : Option Nat) (memory : Memory) (out : Grown Nat) (part : List Char) :
    Except Python.Error (Grown Nat) :=
  let part := strip part
  if part = [] then .ok out else do Python.extend memory out (← partCpus limit part)

/-- `expand_list`, up to the printing. -/
def expandList (limit : Option Nat) (memory : Memory) (arg : List Char) :
    Except Python.Error (List Nat) :=
  let s := strip arg
  if s = [] then .ok []
  else ((s.splitOn ',').foldlM (expandPart limit memory) .empty).map Grown.items

section Items

/-- What can stand between two commas. -/
inductive Item where
  | blank
  | number (cpu : Numeral)
  | range (lo hi : Numeral)
  deriving DecidableEq

namespace Item

def numerals : Item → List Numeral
  | blank => []
  | number cpu => [cpu]
  | range lo hi => [lo, hi]

/-- A range that descends is empty. -/
def values : Item → List Nat
  | blank => []
  | number cpu => [cpu.value]
  | range lo hi => List.range' lo.value (hi.value + 1 - lo.value)

def Descends : Item → Prop
  | blank | number _ => False
  | range lo hi => hi.value < lo.value

/-- Some numeral is longer than the limit. -/
def Long (limit : Option Nat) (item : Item) : Prop :=
  ∃ most ∈ limit, ∃ numeral ∈ item.numerals, most < numeral.digits.length

instance : DecidablePred Descends
  | blank | number _ => inferInstanceAs (Decidable False)
  | range lo hi => inferInstanceAs (Decidable (hi.value < lo.value))

instance (limit : Option Nat) : DecidablePred (Long limit) := fun item =>
  inferInstanceAs (Decidable (∃ most ∈ limit, ∃ numeral ∈ item.numerals, _))

end Item

def isBlank (char : Char) : Bool := char = ' '

/-- A text for the item, with any blanks around its numerals. -/
inductive ItemText : List Char → Item → Prop where
  | blank {text : List Char} (blanks : ∀ char ∈ text, isBlank char = true) : ItemText text .blank
  | number {text : List Char} {cpu : Numeral} (padded : Padded isBlank text cpu.digits) :
      ItemText text (.number cpu)
  | range {left right : List Char} {lo hi : Numeral} (low : Padded isBlank left lo.digits)
      (high : Padded isBlank right hi.digits) : ItemText (left ++ '-' :: right) (.range lo hi)

/-- The items between the commas of a text. -/
def ListText (text : List Char) (items : List Item) : Prop :=
  List.Forall₂ ItemText (text.splitOn ',') items

/-- A digit, a comma, a hyphen or a space. -/
def inAlphabet (char : Char) : Bool :=
  char.isDigit || char = ',' || char = '-' || char = ' '

def OverAlphabet (text : List Char) : Prop := ∀ char ∈ text, inAlphabet char = true

instance (text : List Char) : Decidable (OverAlphabet text) :=
  List.decidableBAll (fun char => inAlphabet char = true) text

/-- Every run of digits in the text stands for a number that fits into a word. -/
def NumbersFit (text : List Char) : Prop :=
  ∀ digits, digits <:+: text → (∀ char ∈ digits, char.isDigit = true) →
    Nat.ofDigitChars 10 digits 0 < 2 ^ 64

end Items

section Texts

variable {text left right : List Char} {item : Item} {numeral : Numeral}

theorem isBlank_digit (char : Char) (digit : char.isDigit = true) : isBlank char = false := by
  refine decide_eq_false ?_
  rintro rfl
  contradiction

theorem fresh_of_padded (padded : Padded isBlank text numeral.digits) {sep : Char}
    (solid : isBlank sep = false) (other : sep.isDigit = false) : sep ∉ text :=
  padded.fresh solid (numeral.fresh other)

theorem hyphen_fresh (padded : Padded isBlank text numeral.digits) : '-' ∉ text :=
  fresh_of_padded padded (by decide) (by decide)

theorem ItemText.unique {second : Item} (shows : ItemText text item)
    (again : ItemText text second) : item = second := by
  have hyphen {left right : List Char} : '-' ∈ left ++ '-' :: right :=
    List.mem_append_right _ List.mem_cons_self
  have noHyphen {blanks : List Char} (each : ∀ char ∈ blanks, isBlank char = true) :
      '-' ∉ blanks := fun mem => absurd (each '-' mem) (by decide)
  have visible {numeral : Numeral} {text : List Char} (padded : Padded isBlank text numeral.digits)
      (blanks : ∀ char ∈ text, isBlank char = true) : False :=
    Numeral.trim_ne_nil isBlank_digit padded (trim_eq_nil_iff.mpr blanks)
  cases shows with
  | blank blanks =>
    cases again with
    | blank => rfl
    | number padded => exact (visible padded blanks).elim
    | range => exact absurd hyphen (noHyphen blanks)
  | number padded =>
    cases again with
    | blank blanks => exact (visible padded blanks).elim
    | number other => rw [Numeral.padded_unique isBlank_digit padded other]
    | range => exact absurd hyphen (hyphen_fresh padded)
  | range low high =>
    generalize same : _ ++ '-' :: _ = text at again
    cases again with
    | blank blanks => exact absurd (same ▸ hyphen) (noHyphen blanks)
    | number padded => exact absurd (same ▸ hyphen) (hyphen_fresh padded)
    | range otherLow otherHigh =>
      -- both halves end at the first hyphen
      have split := congrArg (splitOnce '-') same
      rw [splitOnce_append (hyphen_fresh low), splitOnce_append (hyphen_fresh otherLow),
        Option.some.injEq, Prod.mk.injEq] at split
      obtain ⟨rfl, rfl⟩ := split
      rw [Numeral.padded_unique isBlank_digit low otherLow,
        Numeral.padded_unique isBlank_digit high otherHigh]

theorem ListText.unique {items others : List Item} (shows : ListText text items)
    (again : ListText text others) : items = others := by
  unfold ListText at shows again
  generalize text.splitOn ',' = pieces at shows again
  induction shows generalizing others with
  | nil =>
    cases again
    rfl
  | cons first _ ih =>
    cases again with
    | cons second rest => rw [first.unique second, ih rest]

theorem OverAlphabet.isInfix {piece : List Char} (alphabet : OverAlphabet text)
    (part : piece <:+: text) : OverAlphabet piece :=
  fun char mem => alphabet char (part.subset mem)

theorem NumbersFit.isInfix {piece : List Char} (fit : NumbersFit text) (part : piece <:+: text) :
    NumbersFit piece := fun digits inner => fit digits (inner.trans part)

theorem NumbersFit.value_lt (fit : NumbersFit text) (padded : Padded isBlank text numeral.digits) :
    numeral.value < 2 ^ 64 := fit numeral.digits padded.isInfix numeral.decimal

end Texts

section Alphabet

variable {text inner : List Char}

theorem isSpace_eq_isBlank {char : Char} (alphabet : inAlphabet char = true) :
    isSpace char = isBlank char := by
  simp only [inAlphabet, Bool.or_eq_true, decide_eq_true_eq] at alphabet
  rcases alphabet with ((digit | rfl) | rfl) | rfl
  · rw [isSpace_digit char digit, isBlank_digit char digit]
  · decide
  · decide
  · decide

theorem OverAlphabet.plain (alphabet : OverAlphabet text) : Plain text :=
  ⟨fun mem => absurd (alphabet '+' mem) (by decide),
    fun mem => absurd (alphabet '_' mem) (by decide)⟩

theorem OverAlphabet.padded_isSpace (alphabet : OverAlphabet text) :
    Padded isSpace text inner ↔ Padded isBlank text inner :=
  ⟨fun padded => padded.congr fun char mem => isSpace_eq_isBlank (alphabet char mem),
    fun padded => padded.congr fun char mem => (isSpace_eq_isBlank (alphabet char mem)).symm⟩

end Alphabet

section Parts

variable {limit : Option Nat} {piece left right : List Char} {values : List Nat}
  {value : Nat}

theorem not_long_iff {item : Item} : ¬ item.Long limit ↔
    ∀ numeral ∈ item.numerals, ∀ most ∈ limit, numeral.digits.length ≤ most := by
  simp only [Item.Long, not_exists, not_and, not_lt]
  exact ⟨fun short numeral mem most is => short most is numeral mem,
    fun short most is numeral mem => short numeral mem most is⟩

theorem int_of_alphabet (alphabet : OverAlphabet piece) :
    Python.int limit piece = .ok value ↔ ∃ numeral : Numeral, Padded isBlank piece numeral.digits ∧
      (∀ most ∈ limit, numeral.digits.length ≤ most) ∧ numeral.value = value := by
  simp only [int_eq_ok alphabet.plain, alphabet.padded_isSpace]

theorem partCpus_range (first : '-' ∉ left) (last : '-' ∉ right) :
    partCpus limit (strip (left ++ '-' :: right)) = (do
      let lo ← Python.int limit left
      let hi ← Python.int limit right
      .ok (Python.range lo (hi + 1))) := by
  have before : '-' ∉ left.dropWhile isSpace :=
    fun mem => first ((List.dropWhile_sublist _).mem mem)
  have after : '-' ∉ right.rdropWhile isSpace :=
    fun mem => last ((List.rdropWhile_prefix _ _).mem mem)
  rw [strip, trim_append_cons (by decide), partCpus,
    if_pos (List.mem_append_right _ List.mem_cons_self),
    List.splitOn_append_cons_self_of_not_mem before, List.splitOn_eq_singleton after]
  simp only [int_dropWhile, int_rdropWhile]

/-- A second hyphen makes too many values to unpack. -/
theorem partCpus_hyphens (first : '-' ∉ left) (more : '-' ∈ right) :
    partCpus limit (strip (left ++ '-' :: right)) = .error .valueError := by
  obtain ⟨middle, rest, rfl, fresh⟩ := List.eq_append_cons_of_mem more
  have before : '-' ∉ left.dropWhile isSpace :=
    fun mem => first ((List.dropWhile_sublist _).mem mem)
  have some' := List.splitOn_ne_nil '-' (rest.rdropWhile isSpace)
  rw [strip, trim_append_cons (by decide), rdropWhile_append_cons (by decide), partCpus,
    if_pos (List.mem_append_right _ List.mem_cons_self),
    List.splitOn_append_cons_self_of_not_mem before,
    List.splitOn_append_cons_self_of_not_mem fresh]
  cases pieces : (rest.rdropWhile isSpace).splitOn '-' with
  | nil => exact absurd pieces some'
  | cons => rfl

theorem partCpus_number (single : '-' ∉ piece) :
    partCpus limit (strip piece) = (do
      let cpu ← Python.int limit piece
      .ok [cpu]) := by
  have inside : '-' ∉ strip piece :=
    fun mem => single ((padded_trim isSpace piece).isInfix.subset mem)
  rw [partCpus, if_neg inside, strip, trim, int_rdropWhile, int_dropWhile]

theorem partCpus_eq_ok (alphabet : OverAlphabet piece) (some' : strip piece ≠ []) :
    partCpus limit (strip piece) = .ok values ↔
      ∃ item, ItemText piece item ∧ ¬ item.Long limit ∧ values = item.values := by
  constructor
  · intro read
    by_cases hyphen : '-' ∈ piece
    · obtain ⟨left, right, rfl, first⟩ := List.eq_append_cons_of_mem hyphen
      have leftAlphabet := alphabet.isInfix (List.prefix_append left ('-' :: right)).isInfix
      have rightAlphabet := alphabet.isInfix
        ((List.suffix_cons '-' right).trans (List.suffix_append left _)).isInfix
      by_cases more : '-' ∈ right
      · rw [partCpus_hyphens first more] at read
        contradiction
      · rw [partCpus_range first more] at read
        obtain ⟨_, low, read⟩ := bind_eq_ok.mp read
        obtain ⟨_, high, read⟩ := bind_eq_ok.mp read
        obtain ⟨lo, lowPadded, lowShort, rfl⟩ := (int_of_alphabet leftAlphabet).mp low
        obtain ⟨hi, highPadded, highShort, rfl⟩ := (int_of_alphabet rightAlphabet).mp high
        cases read
        refine ⟨.range lo hi, .range lowPadded highPadded, not_long_iff.mpr ?_, rfl⟩
        simpa [Item.numerals] using ⟨lowShort, highShort⟩
    · rw [partCpus_number hyphen] at read
      obtain ⟨_, number, read⟩ := bind_eq_ok.mp read
      obtain ⟨cpu, padded, short, rfl⟩ := (int_of_alphabet alphabet).mp number
      cases read
      refine ⟨.number cpu, .number padded, not_long_iff.mpr ?_, rfl⟩
      simpa [Item.numerals] using short
  · rintro ⟨item, shows, short, rfl⟩
    rw [not_long_iff] at short
    cases shows with
    | blank blanks =>
      refine absurd (trim_eq_nil_iff.mpr fun char mem => ?_) some'
      rw [isSpace_eq_isBlank (alphabet char mem)]
      exact blanks char mem
    | @number _ cpu padded =>
      rw [partCpus_number (hyphen_fresh padded)]
      have read := (int_of_alphabet alphabet).mpr
        ⟨cpu, padded, short cpu List.mem_cons_self, rfl⟩
      exact bind_eq_ok.mpr ⟨_, read, rfl⟩
    | @range left right lo hi low high =>
      have leftAlphabet := alphabet.isInfix (List.prefix_append left ('-' :: right)).isInfix
      have rightAlphabet := alphabet.isInfix
        ((List.suffix_cons '-' right).trans (List.suffix_append left _)).isInfix
      rw [partCpus_range (hyphen_fresh low) (hyphen_fresh high)]
      have lowRead := (int_of_alphabet leftAlphabet).mpr
        ⟨lo, low, short lo List.mem_cons_self, rfl⟩
      have highRead := (int_of_alphabet rightAlphabet).mpr
        ⟨hi, high, short hi (List.mem_cons_of_mem _ List.mem_cons_self), rfl⟩
      exact bind_eq_ok.mpr ⟨_, lowRead, bind_eq_ok.mpr ⟨_, highRead, rfl⟩⟩

end Parts

end TradingPipeline.Scripts
