import TradingPipeline.Foundation.Fallible
import TradingPipeline.Foundation.Numerals
import TradingPipeline.Shmbus.Cpu

/-! Which CPU lists are accepted, and what they mean.

The grammar is stated without the functions of the parser: parts between commas, blanks around
what a part says, decimal numbers that fit their word.
-/

set_option autoImplicit false

namespace TradingPipeline.Shmbus

open Foundation

/-- Nothing but white space. -/
abbrev Blank (text : List Char) : Prop := ∀ char ∈ text, isWhitespace char = true

/-- A number: at least one digit, perhaps a plus sign before them, and a value that fits. -/
def IsNumber (text : List Char) (value : UInt64) : Prop :=
  ∃ digits, (text = digits ∨ text = '+' :: digits) ∧ digits ≠ [] ∧
    (∀ char ∈ digits, char.isDigit = true) ∧ Nat.ofDigitChars 10 digits 0 = value.toNat

/-- The number with blanks around it. -/
def IsPaddedNumber (text : List Char) (value : UInt64) : Prop :=
  ∃ number, Padded isWhitespace text number ∧ IsNumber number value

/-- What is between two commas, with the values that it stands for. -/
inductive IsPart : List Char → List UInt64 → Prop where
  | blank {text : List Char} (blank : Blank text) : IsPart text []
  | number {text : List Char} {value : UInt64} (number : IsPaddedNumber text value) :
      IsPart text [value]
  | range {left right : List Char} {lo hi : UInt64} (leftNumber : IsPaddedNumber left lo)
      (rightNumber : IsPaddedNumber right hi) (le : lo ≤ hi) :
      IsPart (left ++ '-' :: right) (rangeInclusive lo hi)

/-- A CPU list, with the values of each of its parts. -/
inductive IsCpuList : List Char → List (List UInt64) → Prop where
  | part {text : List Char} {values : List UInt64} (single : ',' ∉ text)
      (part : IsPart text values) : IsCpuList text [values]
  | parts {text rest : List Char} {values : List UInt64} {more : List (List UInt64)}
      (single : ',' ∉ text) (part : IsPart text values) (list : IsCpuList rest more) :
      IsCpuList (text ++ ',' :: rest) (values :: more)

section Numbers

variable {text digits : List Char} {value result : UInt64}

theorem checkedMul_eq_some {first second product : UInt64} :
    checkedMul first second = some product ↔ first.toNat * second.toNat = product.toNat := by
  unfold checkedMul
  have bound := product.toNat_lt
  split
  · next fits =>
    rw [Option.some.injEq, ← UInt64.toNat_inj, UInt64.toNat_mul, Nat.mod_eq_of_lt fits]
  · next wraps =>
    simp only [reduceCtorEq, false_iff]
    omega

theorem checkedAdd_eq_some {first second sum : UInt64} :
    checkedAdd first second = some sum ↔ first.toNat + second.toNat = sum.toNat := by
  unfold checkedAdd
  have bound := sum.toNat_lt
  split
  · next fits =>
    rw [Option.some.injEq, ← UInt64.toNat_inj, UInt64.toNat_add, Nat.mod_eq_of_lt fits]
  · next wraps =>
    simp only [reduceCtorEq, false_iff]
    omega

theorem digit_lt {char : Char} (digit : char.isDigit = true) : char.toNat - '0'.toNat < 10 := by
  have code := digit_code digit
  have zero : '0'.toNat = 48 := rfl
  omega

theorem advance_eq_some {char : Char} (digit : char.isDigit = true) {next : UInt64} :
    ((checkedMul result 10).bind fun mul =>
        checkedAdd mul (.ofNat (char.toNat - '0'.toNat))) = some next ↔
      10 * result.toNat + (char.toNat - '0'.toNat) = next.toNat := by
  have ten : (10 : UInt64).toNat = 10 := rfl
  have small := digit_lt digit
  have word : (UInt64.ofNat (char.toNat - '0'.toNat)).toNat = char.toNat - '0'.toNat :=
    UInt64.toNat_ofNat_of_lt' (Nat.lt_trans small (by decide))
  have bound := next.toNat_lt
  rw [Option.bind_eq_some_iff]
  constructor
  · rintro ⟨product, multiplied, added⟩
    rw [checkedMul_eq_some, ten] at multiplied
    rw [checkedAdd_eq_some, word] at added
    omega
  · intro sum
    have fits : 10 * result.toNat < 2 ^ 64 := by omega
    have product : (UInt64.ofNat (10 * result.toNat)).toNat = 10 * result.toNat :=
      UInt64.toNat_ofNat_of_lt' fits
    refine ⟨.ofNat (10 * result.toNat), ?_, ?_⟩
    · rw [checkedMul_eq_some, product, ten, Nat.mul_comm]
    · rw [checkedAdd_eq_some, product, word, sum]

theorem parseDigits_eq_ok : parseDigits result digits = .ok value ↔
    (∀ char ∈ digits, char.isDigit = true) ∧
      Nat.ofDigitChars 10 digits result.toNat = value.toNat := by
  induction digits generalizing result with
  | nil => simp [parseDigits, Nat.ofDigitChars_nil, UInt64.toNat_inj]
  | cons char rest ih =>
    rw [parseDigits, List.forall_mem_cons, Nat.ofDigitChars_cons]
    by_cases digit : char.isDigit = true
    · simp only [digit, if_true, true_and]
      split
      · next sum advanced => rw [ih, ← (advance_eq_some digit).mp advanced]
      · next stuck =>
        simp only [reduceCtorEq, false_iff, not_and]
        intro _ fits
        -- the value of all digits is no less than that of the first ones
        have least := le_ofDigitChars rest (10 * result.toNat + (char.toNat - '0'.toNat))
        have bound := value.toNat_lt
        have word := UInt64.toNat_ofNat_of_lt' (Nat.lt_of_le_of_lt (fits ▸ least) bound)
        rw [(advance_eq_some digit).mpr word.symm] at stuck
        contradiction
    · simp [digit]

theorem not_isNumber_nil : ¬ IsNumber [] value := by
  rintro ⟨digits, rfl | impossible, some, -⟩
  · exact some rfl
  · contradiction

theorem isNumber_plus : IsNumber ('+' :: digits) value ↔
    digits ≠ [] ∧ (∀ char ∈ digits, char.isDigit = true) ∧
      Nat.ofDigitChars 10 digits 0 = value.toNat := by
  constructor
  · rintro ⟨shown, rfl | same, some, each, fits⟩
    · have sign := each '+' List.mem_cons_self
      contradiction
    · cases same
      exact ⟨some, each, fits⟩
  · exact fun number => ⟨digits, .inr rfl, number⟩

theorem isNumber_unsigned (unsigned : text.head? ≠ some '+') : IsNumber text value ↔
    text ≠ [] ∧ (∀ char ∈ text, char.isDigit = true) ∧
      Nat.ofDigitChars 10 text 0 = value.toNat := by
  constructor
  · rintro ⟨shown, rfl | rfl, number⟩
    · exact number
    · exact absurd rfl unsigned
  · exact fun number => ⟨text, .inl rfl, number⟩

theorem parseUsize_eq_ok : parseUsize text = .ok value ↔ IsNumber text value := by
  unfold parseUsize
  split
  · next empty =>
    simp only [reduceCtorEq, false_iff, empty]
    exact not_isNumber_nil
  · next some =>
    split
    · next sign =>
      -- a sign alone is no number
      simp only [reduceCtorEq, false_iff]
      rcases sign with rfl | rfl
      · rw [isNumber_plus]
        exact fun number => number.1 rfl
      · rw [isNumber_unsigned (by decide)]
        intro number
        have sign := number.2.1 '-' List.mem_cons_self
        contradiction
    · next longer =>
      split
      · next plus =>
        obtain ⟨digits, rfl⟩ := List.head?_eq_some_iff.mp plus
        rw [isNumber_plus, List.tail_cons, parseDigits_eq_ok]
        have more : digits ≠ [] := by
          rintro rfl
          exact longer (.inl rfl)
        simp only [ne_eq, more, not_false_eq_true, true_and]
        rfl
      · next unsigned =>
        rw [isNumber_unsigned unsigned, parseDigits_eq_ok]
        simp only [ne_eq, some, not_false_eq_true, true_and]
        rfl

theorem parseCpu_eq_ok : parseCpu text = .ok value ↔ IsNumber text value := by
  rw [← parseUsize_eq_ok, parseCpu]
  cases parseUsize text with
  | error => simp [Except.mapError]
  | ok => simp [Except.mapError]

end Numbers

section Characters

variable {text number : List Char} {value : UInt64} {values : List UInt64}

theorem IsNumber.chars (isNumber : IsNumber number value) {char : Char} (mem : char ∈ number) :
    isWhitespace char = false ∧ char ≠ ',' ∧ char ≠ '-' := by
  have ofDigit (digit : char.isDigit = true) :
      isWhitespace char = false ∧ char ≠ ',' ∧ char ≠ '-' := by
    refine ⟨?_, ?_, ?_⟩
    · have code := digit_code digit
      rw [← Bool.not_eq_true]
      intro blank
      simp only [isWhitespace, Bool.or_eq_true, Bool.and_eq_true, decide_eq_true_eq] at blank
      omega
    · rintro rfl
      contradiction
    · rintro rfl
      contradiction
  obtain ⟨digits, rfl | rfl, -, each, -⟩ := isNumber
  · exact ofDigit (each char mem)
  · rcases List.mem_cons.mp mem with rfl | digit
    · decide
    · exact ofDigit (each char digit)

theorem isPaddedNumber_iff : IsPaddedNumber text value ↔ IsNumber (trim isWhitespace text) value := by
  constructor
  · rintro ⟨number, padded, isNumber⟩
    have solid := trim_of_solid fun char mem => (isNumber.chars mem).1
    rwa [trim_of_padded padded, solid]
  · exact fun isNumber => ⟨_, padded_trim isWhitespace text, isNumber⟩

theorem IsNumber.padded (isNumber : IsNumber number value) : IsPaddedNumber number value := by
  refine isPaddedNumber_iff.mpr ?_
  rwa [trim_of_solid fun char mem => (isNumber.chars mem).1]

theorem IsPaddedNumber.fresh (isNumber : IsPaddedNumber text value) : ',' ∉ text ∧ '-' ∉ text := by
  obtain ⟨number, padded, isNumber⟩ := isNumber
  exact ⟨padded.fresh (by decide) fun mem => (isNumber.chars mem).2.1 rfl,
    padded.fresh (by decide) fun mem => (isNumber.chars mem).2.2 rfl⟩

theorem IsPart.single (part : IsPart text values) : ',' ∉ text := by
  cases part with
  | blank blank =>
    intro mem
    have comma := blank ',' mem
    contradiction
  | number number => exact number.fresh.1
  | range left right _ =>
    simp only [List.mem_append, List.mem_cons, not_or]
    exact ⟨left.fresh.1, by decide, right.fresh.1⟩

end Characters

section Parts

variable {text : List Char} {values : List UInt64}

theorem isNumber_ne_nil {value : UInt64} (number : IsNumber text value) : text ≠ [] := by
  rintro rfl
  exact not_isNumber_nil number

theorem partItems_number {value : UInt64} (number : IsPaddedNumber text value) :
    trim isWhitespace text ≠ [] ∧ partItems (trim isWhitespace text) = .ok [value] := by
  have isNumber := isPaddedNumber_iff.mp number
  have whole : splitOnce '-' (trim isWhitespace text) = none :=
    splitOnce_eq_none.mpr fun mem => (isNumber.chars mem).2.2 rfl
  constructor
  · exact isNumber_ne_nil isNumber
  · rw [partItems, whole]
    exact bind_eq_ok.mpr ⟨value, parseCpu_eq_ok.mpr isNumber, rfl⟩

theorem partItems_range {left right : List Char} {lo hi : UInt64}
    (leftNumber : IsPaddedNumber left lo) (rightNumber : IsPaddedNumber right hi) (le : lo ≤ hi) :
    trim isWhitespace (left ++ '-' :: right) ≠ [] ∧
      partItems (trim isWhitespace (left ++ '-' :: right)) = .ok (rangeInclusive lo hi) := by
  have apart : trim isWhitespace (left ++ '-' :: right) =
      left.dropWhile isWhitespace ++ '-' :: right.rdropWhile isWhitespace :=
    trim_append_cons (by decide)
  have split : splitOnce '-' (left.dropWhile isWhitespace ++ '-' :: right.rdropWhile isWhitespace) =
      some (left.dropWhile isWhitespace, right.rdropWhile isWhitespace) := by
    apply splitOnce_append
    intro mem
    exact leftNumber.fresh.2 ((List.dropWhile_sublist _).mem mem)
  have low := isPaddedNumber_iff.mp leftNumber
  have high := isPaddedNumber_iff.mp rightNumber
  rw [← trim_dropWhile] at low
  rw [← trim_rdropWhile] at high
  rw [apart]
  constructor
  · exact List.append_ne_nil_of_right_ne_nil _ (List.cons_ne_nil _ _)
  · rw [partItems, split]
    refine bind_eq_ok.mpr ⟨lo, parseCpu_eq_ok.mpr low, ?_⟩
    refine bind_eq_ok.mpr ⟨hi, parseCpu_eq_ok.mpr high, ?_⟩
    exact if_neg (UInt64.not_lt.mpr le)

theorem isPart_of_partItems (items : partItems (trim isWhitespace text) = .ok values) :
    IsPart text values := by
  unfold partItems at items
  split at items
  · next a b split =>
    obtain ⟨lo, low, items⟩ := bind_eq_ok.mp items
    obtain ⟨hi, high, items⟩ := bind_eq_ok.mp items
    split at items
    · contradiction
    · next le =>
      cases items
      obtain ⟨before, after, blankBefore, blankAfter, same⟩ := padded_trim isWhitespace text
      -- the blanks of the part go to the two numbers
      rw [(splitOnce_eq_some split).1] at same
      have regrouped : text = (before ++ a) ++ '-' :: (b ++ after) := by
        rw [same]
        simp
      rw [regrouped]
      apply IsPart.range (isPaddedNumber_iff.mpr ?_) (isPaddedNumber_iff.mpr ?_)
        (UInt64.not_lt.mp le)
      · rw [trim_append_left blankBefore]
        exact parseCpu_eq_ok.mp low
      · rw [trim_append_right blankAfter]
        exact parseCpu_eq_ok.mp high
  · obtain ⟨value, number, items⟩ := bind_eq_ok.mp items
    cases items
    exact .number (isPaddedNumber_iff.mpr (parseCpu_eq_ok.mp number))

/-- What the parser makes of a piece between two commas; a blank one is filtered out. -/
def pieceItems (piece : List Char) : Except CpuListError (List UInt64) :=
  if trim isWhitespace piece = [] then .ok [] else partItems (trim isWhitespace piece)

theorem isPart_iff : IsPart text values ↔ pieceItems text = .ok values := by
  unfold pieceItems
  constructor
  · intro part
    cases part with
    | blank blank => exact if_pos (trim_eq_nil_iff.mpr blank)
    | number number =>
      obtain ⟨some, items⟩ := partItems_number number
      exact (if_neg some).trans items
    | range left right le =>
      obtain ⟨some, items⟩ := partItems_range left right le
      exact (if_neg some).trans items
  · intro items
    split at items
    · next nothing =>
      cases items
      exact .blank (trim_eq_nil_iff.mp nothing)
    · exact isPart_of_partItems items

/-- Filtering out the blank parts is the same as reading nothing in them. -/
theorem foldlM_pieceItems {memory : Memory} (pieces : List (List Char)) (out : CpuVec) :
    ((pieces.map (trim isWhitespace)).filter fun part => part ≠ []).foldlM
        (Grown.take vecGrowth memory .memory partItems) out =
      pieces.foldlM (Grown.take vecGrowth memory .memory pieceItems) out := by
  induction pieces generalizing out with
  | nil => rfl
  | cons piece rest ih =>
    rw [List.map_cons, List.foldlM_cons]
    by_cases nothing : trim isWhitespace piece = []
    · rw [List.filter_cons_of_neg (by simp [nothing]), ih]
      have skipped : out.take vecGrowth memory CpuListError.memory pieceItems piece = .ok out :=
        take_nil (if_pos nothing)
      rw [skipped]
      rfl
    · have same : out.take vecGrowth memory .memory partItems (trim isWhitespace piece) =
          out.take vecGrowth memory .memory pieceItems piece := by
        rw [Grown.take, Grown.take, pieceItems, if_neg nothing]
      rw [List.filter_cons_of_pos (by simp [nothing]), List.foldlM_cons, same]
      exact congrArg _ (funext ih)

theorem parseCpuList_eq (memory : Memory) (s : List Char) : parseCpuList memory s =
    (s.splitOn ',').foldlM (Grown.take vecGrowth memory .memory pieceItems) .empty :=
  foldlM_pieceItems _ _

end Parts

section List

variable {memory : Memory} {s t : List Char} {values : List UInt64} {parts : List (List UInt64)}

theorem isCpuList_iff : IsCpuList s parts ↔ List.Forall₂ IsPart (s.splitOn ',') parts := by
  constructor
  · intro list
    induction list with
    | part single part =>
      rw [List.splitOn_eq_singleton single]
      exact .cons part .nil
    | parts single part _ ih =>
      rw [List.splitOn_append_cons_self_of_not_mem single]
      exact .cons part ih
  · -- joining the pieces with commas gives back the text
    have joined {pieces : List (List Char)} {parts : List (List UInt64)}
        (each : List.Forall₂ IsPart pieces parts) (some : pieces ≠ []) :
        IsCpuList ([','].intercalate pieces) parts := by
      induction each with
      | nil => exact absurd rfl some
      | @cons text _ rest _ part each ih =>
        by_cases last : rest = []
        · subst last
          cases each
          rw [List.intercalate_singleton]
          exact .part part.single part
        · rw [List.intercalate_cons_of_ne_nil last, List.append_assoc, List.singleton_append]
          exact .parts part.single part (ih last)
    intro each
    have list := joined each (List.splitOn_ne_nil _ _)
    rwa [List.intercalate_splitOn] at list

theorem isCpuList_iff_read : IsCpuList s parts ↔
    List.Forall₂ (fun piece values => pieceItems piece = .ok values) (s.splitOn ',') parts := by
  have same : IsPart = fun piece values => pieceItems piece = .ok values := by
    funext piece values
    exact propext isPart_iff
  rw [isCpuList_iff, same]

theorem IsCpuList.unique {others : List (List UInt64)} (list : IsCpuList s parts)
    (again : IsCpuList s others) : parts = others := by
  refine List.right_unique_forall₂' ?_ (isCpuList_iff_read.mp list) (isCpuList_iff_read.mp again)
  intro piece values others part other
  exact Except.ok.inj (part.symm.trans other)

theorem forall₂_append_left {front rest : List (List Char)} :
    List.Forall₂ IsPart (front ++ rest) parts ↔
      ∃ first second, List.Forall₂ IsPart front first ∧ List.Forall₂ IsPart rest second ∧
        parts = first ++ second := by
  constructor
  · intro each
    induction front generalizing parts with
    | nil => exact ⟨[], parts, .nil, each, rfl⟩
    | cons text front ih =>
      rw [List.cons_append, List.forall₂_cons_left_iff] at each
      obtain ⟨values, parts, part, each, rfl⟩ := each
      obtain ⟨first, second, before, after, rfl⟩ := ih each
      exact ⟨values :: first, second, .cons part before, after, rfl⟩
  · rintro ⟨first, second, before, after, rfl⟩
    exact List.rel_append before after

theorem isCpuList_append : IsCpuList (s ++ ',' :: t) parts ↔
    ∃ first second, IsCpuList s first ∧ IsCpuList t second ∧ parts = first ++ second := by
  simp only [isCpuList_iff, List.splitOn_append_cons_self, forall₂_append_left]

theorem parseCpuList_eq_ok : (parseCpuList memory s).map Grown.items = .ok values ↔
    ∃ parts, IsCpuList s parts ∧ memory.Grants vecGrowth 0 0 (parts.map List.length) ∧
      parts.flatten = values := by
  simp only [parseCpuList_eq, foldlM_take_items, isCpuList_iff_read]

/-- Only memory can refuse a list of the grammar. -/
theorem parseCpuList_ne_err (list : IsCpuList s parts) (message : String) :
    parseCpuList memory s ≠ .error (.err message) := by
  intro refused
  rw [parseCpuList_eq] at refused
  obtain ⟨cause, same⟩ := foldlM_take_error (isCpuList_iff_read.mp list) refused
  contradiction

/-- The parser returns `Ok` for exactly the lists of the grammar for which the growth of the vector
is granted, and with their values; it returns `Err` for no list of the grammar. Two lists with a
comma between them are read as one behind the other. -/
theorem parse_accepts (memory : Memory) (s : List Char) :
    (∀ values, (parseCpuList memory s).map Grown.items = .ok values ↔
      ∃ parts, IsCpuList s parts ∧ memory.Grants vecGrowth 0 0 (parts.map List.length) ∧
        parts.flatten = values) ∧
      (∀ parts, IsCpuList s parts → ∀ message, parseCpuList memory s ≠ .error (.err message)) ∧
      ∀ t, (∀ before after a b, (parseCpuList before s).map Grown.items = .ok a →
          (parseCpuList after t).map Grown.items = .ok b →
          ∃ parts, IsCpuList (s ++ ',' :: t) parts ∧ parts.flatten = a ++ b ∧
            ((parseCpuList memory (s ++ ',' :: t)).map Grown.items = .ok (a ++ b) ↔
              memory.Grants vecGrowth 0 0 (parts.map List.length))) ∧
        ∀ whole, (parseCpuList memory (s ++ ',' :: t)).map Grown.items = .ok whole →
          (∃ a, (parseCpuList memory s).map Grown.items = .ok a) ∧
            ∀ after message, parseCpuList after t ≠ .error (.err message) := by
  refine ⟨fun values => parseCpuList_eq_ok, fun parts => parseCpuList_ne_err, fun t => ⟨?_, ?_⟩⟩
  · intro before after a b parsed parsedBehind
    obtain ⟨first, list, -, rfl⟩ := parseCpuList_eq_ok.mp parsed
    obtain ⟨second, listBehind, -, rfl⟩ := parseCpuList_eq_ok.mp parsedBehind
    have joined : IsCpuList (s ++ ',' :: t) (first ++ second) :=
      isCpuList_append.mpr ⟨first, second, list, listBehind, rfl⟩
    refine ⟨first ++ second, joined, List.flatten_append, ?_⟩
    rw [parseCpuList_eq_ok]
    constructor
    · rintro ⟨parts, again, granted, -⟩
      rwa [joined.unique again]
    · exact fun granted => ⟨_, joined, granted, List.flatten_append⟩
  · intro whole parsed
    obtain ⟨parts, joined, granted, -⟩ := parseCpuList_eq_ok.mp parsed
    obtain ⟨first, second, list, listBehind, rfl⟩ := isCpuList_append.mp joined
    rw [List.map_append] at granted
    exact ⟨⟨_, parseCpuList_eq_ok.mpr ⟨first, list, grants_of_append granted, rfl⟩⟩,
      fun after => parseCpuList_ne_err listBehind⟩

theorem parse_accepts_spaced :
    (parseCpuList .ample ("0, 2 -4,".toList ++ ',' :: " +8 ".toList)).map Grown.items =
      .ok [0, 2, 3, 4, 8] := by
  obtain ⟨_, _, _, granted⟩ := ((parse_accepts .ample "0, 2 -4,".toList).2.2 " +8 ".toList).1
    .ample .ample [0, 2, 3, 4] [8] (by decide) (by decide)
  exact granted.mpr grants_ample

theorem length_rangeInclusive (lo hi : UInt64) :
    (rangeInclusive lo hi).length = hi.toNat + 1 - lo.toNat := by
  rw [rangeInclusive, List.length_map, List.length_range']

theorem parse_ne_ok (grants : Nat → Bool) (list : IsCpuList s parts) (request : Nat)
    (asked : request ∈ vecGrowth.requests 0 0 (parts.map List.length)) (long : maxLen < request)
    (cpus : CpuVec) : parseCpuList (vecMemory grants) s ≠ .ok cpus := by
  intro parsed
  have items : (parseCpuList (vecMemory grants) s).map Grown.items = .ok cpus.items := by
    rw [parsed]
    rfl
  obtain ⟨others, again, granted, -⟩ := parseCpuList_eq_ok.mp items
  have met := granted request (list.unique again ▸ asked)
  rw [vecMemory, if_pos long] at met
  contradiction

/-- The range of all numbers is in the grammar, but no vector can hold it. Neither can one grow
beyond half of its limit by a single number. -/
theorem parse_overflows :
    ((∃ parts, IsCpuList "0-18446744073709551615".toList parts) ∧
      ∀ grants cpus, parseCpuList (vecMemory grants) "0-18446744073709551615".toList ≠ .ok cpus) ∧
    (∃ parts, IsCpuList "0-576460752303423487,0".toList parts ∧ parts.flatten.length ≤ maxLen) ∧
      ∀ grants cpus, parseCpuList (vecMemory grants) "0-576460752303423487,0".toList ≠ .ok cpus := by
  have zero : IsNumber ['0'] 0 := parseUsize_eq_ok.mp rfl
  have last : IsNumber "18446744073709551615".toList 18446744073709551615 :=
    parseUsize_eq_ok.mp rfl
  have half : IsNumber "576460752303423487".toList 576460752303423487 := parseUsize_eq_ok.mp rfl
  have all : IsCpuList "0-18446744073709551615".toList
      [rangeInclusive 0 18446744073709551615] :=
    .part (by decide) (.range zero.padded last.padded (by decide))
  have more : IsCpuList "0-576460752303423487,0".toList
      [rangeInclusive 0 576460752303423487, [0]] :=
    .parts (by decide) (.range zero.padded half.padded (by decide))
      (.part (by decide) (.number zero.padded))
  refine ⟨⟨⟨_, all⟩, fun grants => parse_ne_ok grants all (2 ^ 64) ?_ ?_⟩,
    ⟨_, more, ?_⟩, fun grants => parse_ne_ok grants more (2 ^ 60) ?_ ?_⟩
  · simp only [List.map_cons, List.map_nil, length_rangeInclusive]
    decide
  · decide
  · simp only [List.flatten_cons, List.length_append, length_rangeInclusive]
    decide
  · simp only [List.map_cons, List.map_nil, length_rangeInclusive]
    decide
  · decide

end List

end TradingPipeline.Shmbus
