import Mathlib.Data.List.DropRight

/-! What bash makes of the contents of small text files. -/

set_option autoImplicit false

namespace TradingPipeline.Foundation.Shell

/-- A text has no NUL byte. -/
abbrev Text := List Char

/-- `$(cat file)`: the content without its trailing newlines. Bash also drops NUL bytes, of which a
text has none. -/
def cat (content : Text) : Text := content.rdropWhile (· = '\n')

/-- A word that the builtin `echo` takes for its options. -/
def optionWord : Text → Bool
  | '-' :: letter :: rest => (letter :: rest).all fun char => char = 'n' || char = 'e' || char = 'E'
  | _ => false

/-- The output of `echo "$word"`. -/
def echo (word : Text) : Text :=
  if optionWord word then
    if 'n' ∈ word then [] else ['\n']
  else word ++ ['\n']

theorem optionWord_eq_false {word : Text} {char : Char} (mem : char ∈ word)
    (other : char ≠ '-' ∧ char ≠ 'n' ∧ char ≠ 'e' ∧ char ≠ 'E') : optionWord word = false := by
  rw [← Bool.not_eq_true]
  intro option
  unfold optionWord at option
  split at option
  · rcases List.mem_cons.mp mem with hyphen | letter
    · exact other.1 hyphen
    · have is := List.all_eq_true.mp option char letter
      simp only [Bool.or_eq_true, decide_eq_true_eq] at is
      rcases is with (is | is) | is
      · exact other.2.1 is
      · exact other.2.2.1 is
      · exact other.2.2.2 is
  · contradiction

theorem cat_cat (content : Text) : cat (cat content) = cat content :=
  List.rdropWhile_idempotent _ _

theorem mem_cat {content : Text} {char : Char} (mem : char ∈ content) (other : char ≠ '\n') :
    char ∈ cat content := by
  have whole : cat content ++ content.rtakeWhile (· = '\n') = content :=
    List.rdropWhile_append_rtakeWhile
  rw [← whole] at mem
  rcases List.mem_append.mp mem with kept | newline
  · exact kept
  · have is := List.mem_rtakeWhile_imp newline
    exact absurd (of_decide_eq_true is) other

/-- What is echoed into a file is read back, unless it was taken for an option. -/
theorem cat_echo {word : Text} (plain : optionWord word = false) : cat (echo word) = cat word := by
  rw [echo, plain, cat, if_neg Bool.false_ne_true]
  exact List.rdropWhile_concat_pos _ _ _ (decide_eq_true rfl)

section Lines

/-- The lines that a filter reads; what follows the last newline is one, too. -/
def lines (text : Text) : List Text :=
  let pieces := text.splitOn '\n'
  if pieces.getLast? = some [] then pieces.dropLast else pieces

def unlines (texts : List Text) : Text := texts.flatMap (· ++ ['\n'])

/-- `[[:space:]]`, among the characters of ASCII. -/
def isSpace (char : Char) : Bool := char = ' ' || (9 ≤ char.toNat && char.toNat ≤ 13)

variable {texts : List Text} {text : Text}

theorem splitOn_unlines (plain : ∀ text ∈ texts, '\n' ∉ text) :
    (unlines texts).splitOn '\n' = texts ++ [[]] := by
  induction texts with
  | nil => rfl
  | cons text rest ih =>
    obtain ⟨here, later⟩ := List.forall_mem_cons.mp plain
    have cons : unlines (text :: rest) = text ++ '\n' :: unlines rest := by
      simp [unlines]
    rw [cons, List.splitOn_append_cons_self_of_not_mem here, ih later, List.cons_append]

theorem lines_unlines (plain : ∀ text ∈ texts, '\n' ∉ text) : lines (unlines texts) = texts := by
  unfold lines
  simp only [splitOn_unlines plain, List.getLast?_append_cons, List.getLast?_singleton, if_true,
    List.dropLast_concat]

theorem lines_of_single (plain : '\n' ∉ text) (some' : text ≠ []) : lines text = [text] := by
  unfold lines
  simp only [List.splitOn_eq_singleton plain, List.getLast?_singleton, Option.some.injEq,
    if_neg some']

end Lines

end TradingPipeline.Foundation.Shell
