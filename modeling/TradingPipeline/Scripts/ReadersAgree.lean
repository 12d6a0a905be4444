import TradingPipeline.Scripts.CpuLists
import TradingPipeline.Shmbus.CpuParse

/-! The two readers of CPU lists, `expand_list` in Python and `parse_cpu_list` in Rust.

Each of them is told by the items of the text. They differ in what they refuse: Rust a range that
descends, Python a numeral that is longer than its limit.
-/

set_option autoImplicit false

namespace TradingPipeline.Scripts

open Foundation Shmbus
open Foundation.Python (strip isSpace)

section Alphabet

variable {text inner : List Char}

theorem isWhitespace_eq_isBlank {char : Char} (alphabet : inAlphabet char = true) :
    isWhitespace char = isBlank char := by
  simp only [inAlphabet, Bool.or_eq_true, decide_eq_true_eq] at alphabet
  rcases alphabet with ((digit | rfl) | rfl) | rfl
  · have code := digit_code digit
    rw [isBlank_digit char digit, ← Bool.not_eq_true]
    intro blank
    simp only [isWhitespace, Bool.or_eq_true, Bool.and_eq_true, decide_eq_true_eq] at blank
    omega
  · decide
  · decide
  · decide

theorem OverAlphabet.padded_isWhitespace (alphabet : OverAlphabet text) :
    Padded isWhitespace text inner ↔ Padded isBlank text inner :=
  ⟨fun padded => padded.congr fun char mem => isWhitespace_eq_isBlank (alphabet char mem),
    fun padded => padded.congr fun char mem => (isWhitespace_eq_isBlank (alphabet char mem)).symm⟩

end Alphabet

section Items

variable {β : Type} {pieces : List (List Char)} {items : List Item} {blocks : List β}

/-- How many values each item has. -/
def sizes (items : List Item) : List Nat := items.map fun item => item.values.length

/-- What is read of every piece by its item is read of all pieces by their items. -/
theorem forall₂_items {reads : List Char → β → Prop} {stands : Item → β → Prop}
    (each : ∀ piece ∈ pieces, ∀ block,
      reads piece block ↔ ∃ item, ItemText piece item ∧ stands item block) :
    List.Forall₂ reads pieces blocks ↔
      ∃ items, List.Forall₂ ItemText pieces items ∧ List.Forall₂ stands items blocks := by
  induction pieces generalizing blocks with
  | nil =>
    rw [List.forall₂_nil_left_iff]
    constructor
    · rintro rfl
      exact ⟨[], .nil, .nil⟩
    · rintro ⟨_, ⟨⟩, ⟨⟩⟩
      rfl
  | cons piece rest ih =>
    obtain ⟨here, later⟩ := List.forall_mem_cons.mp each
    constructor
    · rintro ⟨⟩
      next block blocks read others =>
      obtain ⟨item, shows, stands⟩ := (here block).mp read
      obtain ⟨items, allShow, allStand⟩ := (ih later).mp others
      exact ⟨item :: items, .cons shows allShow, .cons stands allStand⟩
    · rintro ⟨_, ⟨⟩, ⟨⟩⟩
      next item items shows others block blocks stands allStand =>
      exact .cons ((here block).mpr ⟨item, shows, stands⟩) ((ih later).mpr ⟨items, others, allStand⟩)

theorem forall₂_values {flaw : Item → Prop} {α : Type} {number : α → Nat} {blocks : List (List α)} :
    List.Forall₂ (fun item block => ¬ flaw item ∧ block.map number = item.values) items blocks ↔
      (∀ item ∈ items, ¬ flaw item) ∧
        List.Forall₂ (fun item block => block.map number = item.values) items blocks :=
  List.forall₂_and_left ..

theorem flatten_of_values {α : Type} {number : α → Nat} {blocks : List (List α)}
    (each : List.Forall₂ (fun item block => block.map number = item.values) items blocks) :
    blocks.map List.length = sizes items ∧
      blocks.flatten.map number = items.flatMap Item.values := by
  induction each with
  | nil => exact ⟨rfl, rfl⟩
  | @cons item block items blocks same _ ih =>
    have length : block.length = item.values.length := by rw [← same, List.length_map]
    constructor
    · rw [List.map_cons, length, ih.1]
      rfl
    · rw [List.flatten_cons, List.map_append, same, ih.2, List.flatMap_cons]

end Items

section Python

variable {limit : Option Nat} {memory : Memory} {piece : List Char} {values result : List Nat}

/-- What Python reads in a piece between two commas. -/
def readPiece (limit : Option Nat) (piece : List Char) : Except Python.Error (List Nat) :=
  if strip piece = [] then .ok [] else partCpus limit (strip piece)

theorem readPiece_eq_ok (alphabet : OverAlphabet piece) : readPiece limit piece = .ok values ↔
    ∃ item, ItemText piece item ∧ ¬ item.Long limit ∧ values.map id = item.values := by
  unfold readPiece
  rw [List.map_id]
  split
  · next nothing =>
    have blanks : ∀ char ∈ piece, isBlank char = true := by
      intro char mem
      rw [← isSpace_eq_isBlank (alphabet char mem)]
      exact trim_eq_nil_iff.mp nothing char mem
    constructor
    · rintro ⟨⟩
      exact ⟨.blank, .blank blanks,
        not_long_iff.mpr fun _ mem => absurd mem List.not_mem_nil, rfl⟩
    · rintro ⟨item, shows, -, rfl⟩
      rw [shows.unique (.blank blanks)]
      rfl
  · next some' => exact partCpus_eq_ok alphabet some'

theorem expandPart_eq (limit : Option Nat) (memory : Memory) (out : Grown Nat)
    (piece : List Char) : expandPart limit memory out piece =
      out.take .exact memory (fun _ => Python.Error.memoryError) (readPiece limit) piece := by
  unfold expandPart
  dsimp only
  split
  · next nothing =>
    have none : readPiece limit piece = .ok [] := if_pos nothing
    exact (take_nil none).symm
  · next some' =>
    rw [Grown.take, readPiece, if_neg some']
    rfl

/-- Stripping the argument first makes no difference. -/
theorem expandList_eq (limit : Option Nat) (memory : Memory) (arg : List Char) :
    expandList limit memory arg = ((arg.splitOn ',').foldlM
      (Grown.take .exact memory (fun _ => Python.Error.memoryError) (readPiece limit))
      .empty).map Grown.items := by
  have each : expandPart limit memory =
      Grown.take .exact memory (fun _ => Python.Error.memoryError) (readPiece limit) := by
    funext out piece
    exact expandPart_eq limit memory out piece
  have stripped (out : Grown Nat) (piece : List Char) :
      expandPart limit memory out (strip piece) = expandPart limit memory out piece := by
    have same : strip (strip piece) = strip piece :=
      (trim_of_padded (padded_trim isSpace piece)).symm
    rw [expandPart, expandPart, same]
  have folded (pieces : List (List Char)) : pieces.foldlM (expandPart limit memory) .empty =
      (pieces.map strip).foldlM (expandPart limit memory) .empty := by
    rw [List.foldlM_map]
    simp only [stripped]
  rw [← each]
  unfold expandList
  dsimp only
  split
  · next nothing =>
    have single : ',' ∉ arg := by
      intro mem
      have blank := trim_eq_nil_iff.mp nothing ',' mem
      contradiction
    rw [List.splitOn_eq_singleton single]
    simp only [List.foldlM_cons, List.foldlM_nil, expandPart, if_pos nothing]
    rfl
  · rw [folded, folded (arg.splitOn ','), strip, map_trim_splitOn_trim (by decide)]

theorem expandList_eq_ok {s : List Char} (alphabet : OverAlphabet s) :
    expandList limit memory s = .ok result ↔ ∃ items, ListText s items ∧
      (∀ item ∈ items, ¬ item.Long limit) ∧ memory.Grants .exact 0 0 (sizes items) ∧
      result = items.flatMap Item.values := by
  have each : ∀ piece ∈ s.splitOn ',', ∀ block, readPiece limit piece = .ok block ↔
      ∃ item, ItemText piece item ∧ ¬ item.Long limit ∧ block.map id = item.values :=
    fun piece mem block => readPiece_eq_ok (alphabet.isInfix (isInfix_of_mem_splitOn mem))
  simp only [expandList_eq, foldlM_take_items, forall₂_items each, forall₂_values]
  constructor
  · rintro ⟨blocks, ⟨items, shows, short, same⟩, granted, rfl⟩
    obtain ⟨lengths, values⟩ := flatten_of_values same
    rw [List.map_id] at values
    exact ⟨items, shows, short, lengths ▸ granted, values⟩
  · rintro ⟨items, shows, short, granted, rfl⟩
    have same : List.Forall₂ (fun item block => block.map id = item.values) items
        (items.map Item.values) := by
      rw [List.forall₂_map_right_iff, List.forall₂_same]
      exact fun item _ => List.map_id _
    obtain ⟨lengths, values⟩ := flatten_of_values same
    rw [List.map_id] at values
    exact ⟨_, ⟨items, shows, short, same⟩, lengths ▸ granted, values⟩

end Python

section Rust

variable {piece : List Char} {words : List UInt64} {value : UInt64}

theorem isPaddedNumber_of_alphabet (alphabet : OverAlphabet piece) : IsPaddedNumber piece value ↔
    ∃ numeral : Numeral, Padded isBlank piece numeral.digits ∧ numeral.value = value.toNat := by
  constructor
  · rintro ⟨number, padded, digits, rfl | rfl, some', each, fits⟩
    · exact ⟨⟨_, some', each⟩, alphabet.padded_isWhitespace.mp padded, fits⟩
    · exact absurd (padded.isInfix.subset List.mem_cons_self) alphabet.plain.1
  · rintro ⟨numeral, padded, fits⟩
    exact ⟨numeral.digits, alphabet.padded_isWhitespace.mpr padded, numeral.digits, .inl rfl,
      numeral.nonempty, numeral.decimal, fits⟩

theorem map_toNat_rangeInclusive (lo hi : UInt64) : (rangeInclusive lo hi).map UInt64.toNat =
    List.range' lo.toNat (hi.toNat + 1 - lo.toNat) := by
  have bound := hi.toNat_lt
  rw [rangeInclusive, List.map_map]
  refine (List.map_congr_left fun value mem => ?_).trans (List.map_id _)
  rw [List.mem_range'_1] at mem
  have small : value < 2 ^ 64 := by omega
  exact UInt64.toNat_ofNat_of_lt' small

theorem map_toNat_injective : Function.Injective (List.map UInt64.toNat) :=
  List.map_injective_iff.mpr fun _ _ => UInt64.toNat_inj.mp

theorem isPart_of_alphabet (alphabet : OverAlphabet piece) (fit : NumbersFit piece) :
    IsPart piece words ↔
      ∃ item, ItemText piece item ∧ ¬ item.Descends ∧ words.map UInt64.toNat = item.values := by
  constructor
  · rintro (blank | number | ⟨low, high, le⟩)
    · refine ⟨.blank, .blank fun char mem => ?_, not_false, rfl⟩
      rw [← isWhitespace_eq_isBlank (alphabet char mem)]
      exact blank char mem
    · obtain ⟨cpu, padded, same⟩ := (isPaddedNumber_of_alphabet alphabet).mp number
      exact ⟨.number cpu, .number padded, not_false, by simp [Item.values, same]⟩
    · next left right lo hi =>
      have leftAlphabet := alphabet.isInfix (List.prefix_append left ('-' :: right)).isInfix
      have rightAlphabet := alphabet.isInfix
        ((List.suffix_cons '-' right).trans (List.suffix_append left _)).isInfix
      obtain ⟨first, firstPadded, firstValue⟩ := (isPaddedNumber_of_alphabet leftAlphabet).mp low
      obtain ⟨second, secondPadded, secondValue⟩ := (isPaddedNumber_of_alphabet rightAlphabet).mp high
      rw [UInt64.le_iff_toNat_le] at le
      refine ⟨.range first second, .range firstPadded secondPadded, ?_, ?_⟩
      · simp only [Item.Descends, firstValue, secondValue]
        omega
      · rw [map_toNat_rangeInclusive, Item.values, firstValue, secondValue]
  · rintro ⟨item, shows, ordered, same⟩
    cases shows with
    | blank blanks =>
      cases List.map_eq_nil_iff.mp same
      refine .blank fun char mem => ?_
      rw [isWhitespace_eq_isBlank (alphabet char mem)]
      exact blanks char mem
    | @number _ cpu padded =>
      obtain ⟨word, rfl, value⟩ := List.map_eq_singleton_iff.mp same
      exact .number ((isPaddedNumber_of_alphabet alphabet).mpr ⟨cpu, padded, value.symm⟩)
    | @range left right lo hi low high =>
      have leftInfix := (List.prefix_append left ('-' :: right)).isInfix
      have rightInfix := ((List.suffix_cons '-' right).trans (List.suffix_append left _)).isInfix
      -- both numbers are those of a word
      have lowWord := UInt64.toNat_ofNat_of_lt' ((fit.isInfix leftInfix).value_lt low)
      have highWord := UInt64.toNat_ofNat_of_lt' ((fit.isInfix rightInfix).value_lt high)
      have range : words = rangeInclusive (.ofNat lo.value) (.ofNat hi.value) := by
        refine map_toNat_injective ?_
        rw [same, map_toNat_rangeInclusive, lowWord, highWord, Item.values]
      rw [range]
      refine .range ((isPaddedNumber_of_alphabet (alphabet.isInfix leftInfix)).mpr
        ⟨lo, low, lowWord.symm⟩) ((isPaddedNumber_of_alphabet (alphabet.isInfix rightInfix)).mpr
        ⟨hi, high, highWord.symm⟩) ?_
      rw [UInt64.le_iff_toNat_le, lowWord, highWord]
      exact Nat.not_lt.mp ordered

theorem map_toNat_ofNat {values : List Nat} (small : ∀ value ∈ values, value < 2 ^ 64) :
    (values.map UInt64.ofNat).map UInt64.toNat = values := by
  rw [List.map_map]
  refine (List.map_congr_left fun value mem => ?_).trans (List.map_id _)
  exact UInt64.toNat_ofNat_of_lt' (small value mem)

theorem ItemText.values_lt {piece : List Char} {item : Item} (shows : ItemText piece item)
    (fit : NumbersFit piece) : ∀ value ∈ item.values, value < 2 ^ 64 := by
  cases shows with
  | blank => exact fun _ mem => absurd mem List.not_mem_nil
  | number padded =>
    intro value mem
    rw [List.mem_singleton.mp mem]
    exact fit.value_lt padded
  | @range left right lo hi low high =>
    intro value mem
    have highFits := (fit.isInfix ((List.suffix_cons '-' right).trans
      (List.suffix_append left _)).isInfix).value_lt high
    rw [Item.values, List.mem_range'_1] at mem
    omega

theorem forall₂_words {pieces : List (List Char)} {items : List Item}
    (shows : List.Forall₂ ItemText pieces items) (fit : ∀ piece ∈ pieces, NumbersFit piece) :
    List.Forall₂ (fun item words => words.map UInt64.toNat = item.values) items
      (items.map fun item => item.values.map .ofNat) := by
  induction shows with
  | nil => exact .nil
  | cons first _ ih =>
    obtain ⟨here, later⟩ := List.forall_mem_cons.mp fit
    exact .cons (map_toNat_ofNat (first.values_lt here)) (ih later)

theorem parseCpuList_of_alphabet {memory : Memory} {s : List Char} (alphabet : OverAlphabet s)
    (fit : NumbersFit s) : (parseCpuList memory s).map Grown.items = .ok words ↔
      ∃ items, ListText s items ∧ (∀ item ∈ items, ¬ item.Descends) ∧
        memory.Grants vecGrowth 0 0 (sizes items) ∧
        words.map UInt64.toNat = items.flatMap Item.values := by
  have each : ∀ piece ∈ s.splitOn ',', ∀ block, IsPart piece block ↔
      ∃ item, ItemText piece item ∧ ¬ item.Descends ∧ block.map UInt64.toNat = item.values :=
    fun piece mem block => isPart_of_alphabet (alphabet.isInfix (isInfix_of_mem_splitOn mem))
      (fit.isInfix (isInfix_of_mem_splitOn mem))
  simp only [parseCpuList_eq_ok, isCpuList_iff, forall₂_items each, forall₂_values]
  constructor
  · rintro ⟨parts, ⟨items, shows, ordered, same⟩, granted, rfl⟩
    obtain ⟨lengths, values⟩ := flatten_of_values same
    exact ⟨items, shows, ordered, lengths ▸ granted, values⟩
  · rintro ⟨items, shows, ordered, granted, values⟩
    have same := forall₂_words shows fun piece mem => fit.isInfix (isInfix_of_mem_splitOn mem)
    obtain ⟨lengths, words⟩ := flatten_of_values same
    exact ⟨_, ⟨items, shows, ordered, same⟩, lengths ▸ granted,
      map_toNat_injective (words.trans values.symm)⟩

end Rust

section Agreement

variable {limit : Option Nat} {lists vecs : Memory} {s : List Char} {items : List Item}

/-- Both readers succeed with the same CPUs in the same order, or both fail. -/
def Agree (limit : Option Nat) (lists vecs : Memory) (s : List Char) : Prop :=
  (∃ out cpus, expandList limit lists s = .ok out ∧ parseCpuList vecs s = .ok cpus ∧
    out = cpus.items.map UInt64.toNat) ∨
  (∀ out, expandList limit lists s ≠ .ok out) ∧ ∀ cpus, parseCpuList vecs s ≠ .ok cpus

/-- A numeral is beyond Python's limit, or its list cannot grow. -/
def FlawForPython (limit : Option Nat) (lists : Memory) (items : List Item) : Prop :=
  (∃ item ∈ items, item.Long limit) ∨ ¬ lists.Grants .exact 0 0 (sizes items)

/-- A range descends, or Rust's vector cannot grow. -/
def FlawForRust (vecs : Memory) (items : List Item) : Prop :=
  (∃ item ∈ items, item.Descends) ∨ ¬ vecs.Grants vecGrowth 0 0 (sizes items)

variable (limit lists) in
theorem expandList_of_items (alphabet : OverAlphabet s) (shows : ListText s items) :
    (∃ out, expandList limit lists s = .ok out) ↔ ¬ FlawForPython limit lists items := by
  simp only [expandList_eq_ok alphabet, FlawForPython, not_or, not_exists, not_and, not_not]
  constructor
  · rintro ⟨out, others, again, short, granted, -⟩
    obtain rfl := shows.unique again
    exact ⟨short, granted⟩
  · exact fun ⟨short, granted⟩ => ⟨_, items, shows, short, granted, rfl⟩

variable (vecs) in
theorem parseCpuList_of_items (alphabet : OverAlphabet s) (fit : NumbersFit s)
    (shows : ListText s items) :
    (∃ cpus, parseCpuList vecs s = .ok cpus) ↔ ¬ FlawForRust vecs items := by
  have parsed : (∃ cpus, parseCpuList vecs s = .ok cpus) ↔
      ∃ words, (parseCpuList vecs s).map Grown.items = .ok words := by
    simp only [map_eq_ok]
    exact ⟨fun ⟨cpus, parsed⟩ => ⟨_, cpus, parsed, rfl⟩, fun ⟨_, cpus, parsed, _⟩ => ⟨cpus, parsed⟩⟩
  simp only [parsed, parseCpuList_of_alphabet alphabet fit, FlawForRust, not_or, not_exists,
    not_and, not_not]
  constructor
  · rintro ⟨words, others, again, ordered, granted, -⟩
    obtain rfl := shows.unique again
    exact ⟨ordered, granted⟩
  · rintro ⟨ordered, granted⟩
    have same := forall₂_words shows fun piece mem => fit.isInfix (isInfix_of_mem_splitOn mem)
    exact ⟨_, items, shows, ordered, granted, (flatten_of_values same).2⟩

theorem items_of_reader (alphabet : OverAlphabet s) (fit : NumbersFit s)
    (reads : (∃ out, expandList limit lists s = .ok out) ∨ ∃ cpus, parseCpuList vecs s = .ok cpus) :
    ∃ items, ListText s items := by
  rcases reads with ⟨out, read⟩ | ⟨cpus, parsed⟩
  · obtain ⟨items, shows, -⟩ := (expandList_eq_ok alphabet).mp read
    exact ⟨items, shows⟩
  · obtain ⟨items, shows, -⟩ :=
      (parseCpuList_of_alphabet alphabet fit).mp (map_eq_ok.mpr ⟨cpus, parsed, rfl⟩)
    exact ⟨items, shows⟩

/-- The two readers agree on a text unless it is a list that has a flaw for exactly one of them. -/
theorem readers_agree_iff (limit : Option Nat) (lists vecs : Memory) {s : List Char}
    (alphabet : OverAlphabet s) (fit : NumbersFit s) : Agree limit lists vecs s ↔
      ∀ items, ListText s items → (FlawForRust vecs items ↔ FlawForPython limit lists items) := by
  constructor
  · intro agree items shows
    have python := expandList_of_items limit lists alphabet shows
    have rust := parseCpuList_of_items vecs alphabet fit shows
    rcases agree with ⟨out, cpus, read, parsed, -⟩ | ⟨unread, unparsed⟩
    · exact iff_of_false (rust.mp ⟨cpus, parsed⟩) (python.mp ⟨out, read⟩)
    · refine iff_of_true ?_ ?_
      · by_contra accepts
        obtain ⟨cpus, parsed⟩ := rust.mpr accepts
        exact unparsed cpus parsed
      · by_contra accepts
        obtain ⟨out, read⟩ := python.mpr accepts
        exact unread out read
  · intro same
    by_cases reads : (∃ out, expandList limit lists s = .ok out) ∨
        ∃ cpus, parseCpuList vecs s = .ok cpus
    · obtain ⟨items, shows⟩ := items_of_reader alphabet fit reads
      -- where one reads the list, so does the other
      have agree : (∃ out, expandList limit lists s = .ok out) ↔
          ∃ cpus, parseCpuList vecs s = .ok cpus := by
        rw [expandList_of_items limit lists alphabet shows,
          parseCpuList_of_items vecs alphabet fit shows, same items shows]
      obtain ⟨out, read⟩ := reads.elim id agree.mpr
      obtain ⟨cpus, parsed⟩ := agree.mp ⟨out, read⟩
      refine .inl ⟨out, cpus, read, parsed, ?_⟩
      obtain ⟨first, firstShows, -, -, rfl⟩ := (expandList_eq_ok alphabet).mp read
      obtain ⟨second, secondShows, -, -, values⟩ :=
        (parseCpuList_of_alphabet alphabet fit).mp (map_eq_ok.mpr ⟨cpus, parsed, rfl⟩)
      rw [firstShows.unique secondShows, values]
    · rw [not_or, not_exists, not_exists] at reads
      exact .inr reads

theorem ofDigitChars_lt {digits : List Char} (each : ∀ char ∈ digits, char.isDigit = true)
    (initial : Nat) :
    Nat.ofDigitChars 10 digits initial < (initial + 1) * 10 ^ digits.length := by
  induction digits generalizing initial with
  | nil => simp [Nat.ofDigitChars_nil]
  | cons char rest ih =>
    obtain ⟨digit, others⟩ := List.forall_mem_cons.mp each
    have small := digit_lt digit
    rw [Nat.ofDigitChars_cons, List.length_cons, Nat.pow_succ, Nat.mul_comm (10 ^ _), ← Nat.mul_assoc]
    exact (ih others _).trans_le (Nat.mul_le_mul_right _ (by omega))

theorem numbersFit_of_length (short : s.length ≤ 19) : NumbersFit s := by
  intro digits inner each
  have length := inner.length_le.trans short
  calc Nat.ofDigitChars 10 digits 0
      < (0 + 1) * 10 ^ digits.length := ofDigitChars_lt each 0
    _ ≤ 1 * 10 ^ 19 := Nat.mul_le_mul_left _ (Nat.pow_le_pow_right (by decide) length)
    _ ≤ 2 ^ 64 := by decide

theorem readers_agree_iff_spaced : Agree (some 4300) .ample .ample "0-3, 8".toList ↔
    ∀ items, ListText "0-3, 8".toList items →
      (FlawForRust .ample items ↔ FlawForPython (some 4300) .ample items) :=
  readers_agree_iff (some 4300) .ample .ample (by decide) (numbersFit_of_length (by decide))

/-- Python reads a range that descends as an empty one, and Rust refuses it. -/
theorem readers_disagree :
    ¬ ∀ s, OverAlphabet s → NumbersFit s → Agree (some 4300) .ample .ample s := by
  intro agree
  have python : expandList (some 4300) .ample ['5', '-', '3'] = .ok [] := by decide +kernel
  have rust : parseCpuList .ample ['5', '-', '3'] = .error (.err "invalid range: 5-3") := by
    decide +kernel
  have alphabet : OverAlphabet ['5', '-', '3'] := by decide
  rcases agree _ alphabet (numbersFit_of_length (by decide)) with ⟨_, cpus, _, parsed, _⟩ | ⟨unread, _⟩
  · rw [rust] at parsed
    contradiction
  · exact unread [] python

end Agreement

end TradingPipeline.Scripts
