import Mathlib.Data.List.DropRight

/-! Texts with blanks around them, and the first separator of a text. -/

set_option autoImplicit false

namespace TradingPipeline.Foundation

universe u

variable {α : Type u}

section Trim

variable {blank : α → Bool} {text inner left right : List α} {sep : α}

/-- The text without the blanks at its two ends. -/
def trim (blank : α → Bool) (text : List α) : List α := (text.dropWhile blank).rdropWhile blank

/-- The text is the other one with blanks around it. -/
def Padded (blank : α → Bool) (text inner : List α) : Prop :=
  ∃ before after, (∀ char ∈ before, blank char = true) ∧ (∀ char ∈ after, blank char = true) ∧
    text = before ++ inner ++ after

theorem Padded.refl (blank : α → Bool) (text : List α) : Padded blank text text :=
  ⟨[], [], fun _ mem => absurd mem List.not_mem_nil, fun _ mem => absurd mem List.not_mem_nil,
    (List.append_nil _).symm⟩

theorem rdropWhile_append_blank {after : List α} (blanks : ∀ char ∈ after, blank char = true)
    (front : List α) : (front ++ after).rdropWhile blank = front.rdropWhile blank := by
  have reversed : ∀ char ∈ after.reverse, blank char = true := by
    intro char mem
    exact blanks char (List.mem_reverse.mp mem)
  rw [List.rdropWhile, List.rdropWhile, List.reverse_append,
    List.dropWhile_append_of_pos reversed]

theorem dropWhile_append_cons (solid : blank sep = false) (front rest : List α) :
    (front ++ sep :: rest).dropWhile blank = front.dropWhile blank ++ sep :: rest := by
  induction front with
  | nil => exact List.dropWhile_cons_of_neg (by simp [solid])
  | cons char front ih =>
    cases here : blank char with
    | true =>
      rw [List.cons_append, List.dropWhile_cons_of_pos here, List.dropWhile_cons_of_pos here, ih]
    | false =>
      have stays : ¬ blank char = true := by simp [here]
      rw [List.cons_append, List.dropWhile_cons_of_neg stays, List.dropWhile_cons_of_neg stays]
      rfl

theorem rdropWhile_append_cons (solid : blank sep = false) (front rest : List α) :
    (front ++ sep :: rest).rdropWhile blank = front ++ sep :: rest.rdropWhile blank := by
  have turned := dropWhile_append_cons solid rest.reverse front.reverse
  rw [List.rdropWhile, List.rdropWhile, List.reverse_append, List.reverse_cons, List.append_assoc,
    List.singleton_append, turned, List.reverse_append, List.reverse_cons, List.reverse_reverse,
    List.append_assoc, List.singleton_append]

theorem trim_append_cons (solid : blank sep = false) :
    trim blank (left ++ sep :: right) =
      left.dropWhile blank ++ sep :: right.rdropWhile blank := by
  rw [trim, dropWhile_append_cons solid, rdropWhile_append_cons solid]

theorem padded_trim (blank : α → Bool) (text : List α) : Padded blank text (trim blank text) := by
  refine ⟨text.takeWhile blank, (text.dropWhile blank).rtakeWhile blank, ?_, ?_, ?_⟩
  · exact fun char mem => List.mem_takeWhile_imp mem
  · exact fun char mem => List.mem_rtakeWhile_imp mem
  · rw [trim, List.append_assoc, List.rdropWhile_append_rtakeWhile, List.takeWhile_append_dropWhile]

theorem trim_eq_nil_iff : trim blank text = [] ↔ ∀ char ∈ text, blank char = true := by
  constructor
  · intro nothing
    obtain ⟨before, after, blankBefore, blankAfter, same⟩ := padded_trim blank text
    intro char mem
    rw [same, nothing, List.append_nil] at mem
    exact (List.mem_append.mp mem).elim (blankBefore char) (blankAfter char)
  · intro blanks
    rw [trim, List.dropWhile_eq_nil_iff.mpr blanks, List.rdropWhile_nil]

theorem trim_of_padded (padded : Padded blank text inner) : trim blank text = trim blank inner := by
  obtain ⟨before, after, blankBefore, blankAfter, rfl⟩ := padded
  by_cases blanks : ∀ char ∈ inner, blank char = true
  · have all : ∀ char ∈ before ++ inner ++ after, blank char = true := by
      intro char mem
      rcases List.mem_append.mp mem with front | back
      · exact (List.mem_append.mp front).elim (blankBefore char) (blanks char)
      · exact blankAfter char back
    rw [trim_eq_nil_iff.mpr all, trim_eq_nil_iff.mpr blanks]
  · simp only [not_forall, Bool.not_eq_true] at blanks
    obtain ⟨solid, mem, plain⟩ := blanks
    obtain ⟨front, rest, rfl⟩ := List.append_of_mem mem
    have regrouped : before ++ (front ++ solid :: rest) ++ after =
        (before ++ front) ++ solid :: (rest ++ after) := by simp
    rw [regrouped, trim_append_cons plain, trim_append_cons plain,
      List.dropWhile_append_of_pos blankBefore, rdropWhile_append_blank blankAfter]

theorem trim_append_left {before : List α} (blanks : ∀ char ∈ before, blank char = true) :
    trim blank (before ++ inner) = trim blank inner :=
  trim_of_padded ⟨before, [], blanks, fun _ mem => absurd mem List.not_mem_nil, by simp⟩

theorem trim_append_right {after : List α} (blanks : ∀ char ∈ after, blank char = true) :
    trim blank (inner ++ after) = trim blank inner :=
  trim_of_padded ⟨[], after, fun _ mem => absurd mem List.not_mem_nil, blanks, by simp⟩

theorem trim_dropWhile (blank : α → Bool) (text : List α) :
    trim blank (text.dropWhile blank) = trim blank text := by
  have front : ∀ char ∈ text.takeWhile blank, blank char = true :=
    fun char mem => List.mem_takeWhile_imp mem
  rw [← trim_append_left front, List.takeWhile_append_dropWhile]

theorem trim_rdropWhile (blank : α → Bool) (text : List α) :
    trim blank (text.rdropWhile blank) = trim blank text := by
  have back : ∀ char ∈ text.rtakeWhile blank, blank char = true :=
    fun char mem => List.mem_rtakeWhile_imp mem
  rw [← trim_append_right back, List.rdropWhile_append_rtakeWhile]

theorem Padded.congr {blank other : α → Bool} (padded : Padded blank text inner)
    (same : ∀ char ∈ text, blank char = other char) : Padded other text inner := by
  obtain ⟨before, after, blankBefore, blankAfter, rfl⟩ := padded
  refine ⟨before, after, fun char mem => ?_, fun char mem => ?_, rfl⟩
  · rw [← same char (by simp [mem])]
    exact blankBefore char mem
  · rw [← same char (by simp [mem])]
    exact blankAfter char mem

theorem Padded.fresh (padded : Padded blank text inner) (solid : blank sep = false)
    (other : sep ∉ inner) : sep ∉ text := by
  obtain ⟨before, after, blankBefore, blankAfter, rfl⟩ := padded
  simp only [List.mem_append, not_or]
  refine ⟨⟨fun mem => ?_, other⟩, fun mem => ?_⟩
  · rw [blankBefore sep mem] at solid
    contradiction
  · rw [blankAfter sep mem] at solid
    contradiction

theorem Padded.isInfix (padded : Padded blank text inner) : inner <:+: text := by
  obtain ⟨before, after, -, -, rfl⟩ := padded
  exact ⟨before, after, rfl⟩

theorem trim_of_solid (solid : ∀ char ∈ inner, blank char = false) : trim blank inner = inner := by
  have front : inner.dropWhile blank = inner := by
    cases inner with
    | nil => rfl
    | cons char rest =>
      exact List.dropWhile_cons_of_neg (by simp [solid char List.mem_cons_self])
  rw [trim, front, List.rdropWhile_eq_self_iff]
  intro some
  simp [solid _ (List.getLast_mem some)]

end Trim

section Join

variable {sep : α} {piece : List α}

theorem isInfix_intercalate {pieces : List (List α)} (mem : piece ∈ pieces) :
    piece <:+: [sep].intercalate pieces := by
  induction pieces with
  | nil => contradiction
  | cons first rest ih =>
    by_cases last : rest = []
    · subst last
      obtain rfl := List.mem_singleton.mp mem
      exact ⟨[], [], by simp [List.intercalate_singleton]⟩
    · rw [List.intercalate_cons_of_ne_nil last]
      rcases List.mem_cons.mp mem with rfl | later
      · exact ⟨[], [sep] ++ [sep].intercalate rest, by simp⟩
      · exact (ih later).trans (List.suffix_append _ _).isInfix

theorem mem_intercalate {pieces : List (List α)} {char : α}
    (mem : char ∈ [sep].intercalate pieces) : char = sep ∨ ∃ piece ∈ pieces, char ∈ piece := by
  induction pieces with
  | nil => contradiction
  | cons first rest ih =>
    by_cases last : rest = []
    · subst last
      rw [List.intercalate_singleton] at mem
      exact .inr ⟨first, List.mem_cons_self, mem⟩
    · rw [List.intercalate_cons_of_ne_nil last, List.mem_append, List.mem_append,
        List.mem_singleton] at mem
      rcases mem with (here | comma) | later
      · exact .inr ⟨first, List.mem_cons_self, here⟩
      · exact .inl comma
      · exact (ih later).imp id fun ⟨piece, listed, inside⟩ =>
          ⟨piece, List.mem_cons_of_mem first listed, inside⟩

end Join

section Split

variable [DecidableEq α] {sep : α} {text left right : List α}

/-- The text before the first separator and the text behind it. -/
def splitOnce (sep : α) (text : List α) : Option (List α × List α) :=
  if sep ∈ text then
    some (text.takeWhile (· ≠ sep), (text.dropWhile (· ≠ sep)).tail)
  else none

theorem splitOnce_append (fresh : sep ∉ left) :
    splitOnce sep (left ++ sep :: right) = some (left, right) := by
  have before : ∀ char ∈ left, decide (char ≠ sep) = true := by
    intro char mem
    exact decide_eq_true fun same => fresh (same ▸ mem)
  rw [splitOnce, if_pos (List.mem_append_right left List.mem_cons_self),
    List.takeWhile_append_of_pos before, List.dropWhile_append_of_pos before]
  simp

theorem splitOnce_eq_none : splitOnce sep text = none ↔ sep ∉ text := by
  unfold splitOnce
  split <;> simp [*]

theorem splitOnce_eq_some (split : splitOnce sep text = some (left, right)) :
    text = left ++ sep :: right ∧ sep ∉ left := by
  have mem : sep ∈ text := by
    by_contra fresh
    rw [splitOnce_eq_none.mpr fresh] at split
    contradiction
  obtain ⟨front, rest, rfl, fresh⟩ := List.eq_append_cons_of_mem mem
  rw [splitOnce_append fresh] at split
  cases split
  exact ⟨rfl, fresh⟩

section Pieces

variable {piece : List α} {blank : α → Bool}

theorem isInfix_of_mem_splitOn (mem : piece ∈ text.splitOn sep) : piece <:+: text := by
  have inside : piece <:+: [sep].intercalate (text.splitOn sep) := isInfix_intercalate mem
  rwa [List.intercalate_splitOn] at inside

theorem map_trim_splitOn_rdropWhile (solid : blank sep = false) (text : List α) :
    ((text.rdropWhile blank).splitOn sep).map (trim blank) =
      (text.splitOn sep).map (trim blank) := by
  by_cases mem : sep ∈ text
  · obtain ⟨left, right, rfl, fresh⟩ := List.eq_append_cons_of_mem mem
    have shorter : right.length < (left ++ sep :: right).length := by
      rw [List.length_append, List.length_cons]
      omega
    rw [rdropWhile_append_cons solid, List.splitOn_append_cons_self_of_not_mem fresh,
      List.splitOn_append_cons_self_of_not_mem fresh, List.map_cons, List.map_cons,
      map_trim_splitOn_rdropWhile solid right]
  · have fresh : sep ∉ text.rdropWhile blank :=
      fun inside => mem ((List.rdropWhile_prefix _ _).mem inside)
    rw [List.splitOn_eq_singleton fresh, List.splitOn_eq_singleton mem, List.map_singleton,
      List.map_singleton, trim_rdropWhile]
termination_by text.length

/-- Trimming a text first makes no difference to its trimmed pieces. -/
theorem map_trim_splitOn_trim (solid : blank sep = false) (text : List α) :
    ((trim blank text).splitOn sep).map (trim blank) = (text.splitOn sep).map (trim blank) := by
  rw [trim, map_trim_splitOn_rdropWhile solid]
  by_cases mem : sep ∈ text
  · obtain ⟨left, right, rfl, fresh⟩ := List.eq_append_cons_of_mem mem
    have trimmed : sep ∉ left.dropWhile blank :=
      fun inside => fresh ((List.dropWhile_sublist _).mem inside)
    rw [dropWhile_append_cons solid, List.splitOn_append_cons_self_of_not_mem fresh,
      List.splitOn_append_cons_self_of_not_mem trimmed, List.map_cons, List.map_cons,
      trim_dropWhile]
  · have fresh : sep ∉ text.dropWhile blank :=
      fun inside => mem ((List.dropWhile_sublist _).mem inside)
    rw [List.splitOn_eq_singleton fresh, List.splitOn_eq_singleton mem, List.map_singleton,
      List.map_singleton, trim_dropWhile]

end Pieces
end Split

end TradingPipeline.Foundation
