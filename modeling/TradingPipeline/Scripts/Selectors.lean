import Mathlib.Logic.Function.Iterate
import TradingPipeline.Foundation.Trim
import TradingPipeline.Scripts.HostPrep

/-! Tunables that are selectors.

Reading a selector shows all of its options with the active one in brackets. Writing takes the bare
name of an option and nothing else, so what is read from it cannot be written back.
-/

set_option autoImplicit false

namespace TradingPipeline.Scripts

open Foundation Shell

/-- A character of a bare option name. -/
def isBare (char : Char) : Bool := char ≠ ' ' && char ≠ '\n' && char ≠ '[' && char ≠ ']'

structure Selector where
  options : List Text
  bare : ∀ option ∈ options, option ≠ [] ∧ ∀ char ∈ option, isBare char = true

namespace Selector

/-- An option as it is shown. -/
def shown (active option : Text) : Text :=
  if option = active then '[' :: option ++ [']'] else option

/-- What is read while the option is active. -/
def content (selector : Selector) (active : Text) : Text :=
  [' '].intercalate (selector.options.map (shown active)) ++ ['\n']

/-- The kernel takes the name of an option, and a newline behind it. -/
def answer (selector : Selector) (written : Text) : Option Text :=
  (selector.options.find? fun option => option ++ ['\n'] = written).map selector.content

variable (selector : Selector) (tunable : Tunable)

/-- A run in apply mode, as far as the selector is concerned. -/
def apply (value : Text) (state : SysfsState) : SysfsState :=
  (writeSysfs state .apply tunable value .writable selector.answer).1

/-- A run in revert mode; the value that it is called with does not matter. -/
def revert (value : Text) (state : SysfsState) : SysfsState :=
  (writeSysfs state .revert tunable value .writable selector.answer).1

section Reading

variable {selector} {active other : Text}

theorem shown_active (active : Text) : shown active active = '[' :: active ++ [']'] := if_pos rfl

theorem shown_inactive (different : other ≠ active) : shown active other = other := if_neg different

theorem shown_chars {option : Text} (mem : option ∈ selector.options) {char : Char}
    (inside : char ∈ shown active option) : char ≠ ' ' ∧ char ≠ '\n' := by
  have bare {char : Char} (inside : char ∈ option) : char ≠ ' ' ∧ char ≠ '\n' := by
    have is := (selector.bare option mem).2 char inside
    simp only [isBare, Bool.and_eq_true, decide_eq_true_eq] at is
    exact ⟨is.1.1.1, is.1.1.2⟩
  unfold shown at inside
  split at inside
  · simp only [List.cons_append, List.mem_cons, List.mem_append, List.not_mem_nil, or_false] at inside
    rcases inside with rfl | inside | rfl
    · decide
    · exact bare inside
    · decide
  · exact bare inside

theorem content_injective (mem : active ∈ selector.options)
    (same : selector.content active = selector.content other) : active = other := by
  have some' (option : Text) : selector.options.map (shown option) ≠ [] := by
    intro nothing
    rw [List.map_eq_nil_iff.mp nothing] at mem
    contradiction
  have pieces (option : Text) :
      ([' '].intercalate (selector.options.map (shown option))).splitOn ' ' =
        selector.options.map (shown option) := by
    refine List.splitOn_intercalate ' ' (fun piece listed space => ?_) (some' option)
    obtain ⟨_, of, rfl⟩ := List.mem_map.mp listed
    exact (shown_chars of space).1 rfl
  have maps := congrArg (List.splitOn ' ') (List.append_cancel_right same)
  rw [pieces, pieces, List.map_inj_left] at maps
  by_contra different
  have brackets := maps active mem
  rw [shown_active, shown_inactive different] at brackets
  have length := congrArg List.length brackets
  simp only [List.length_append, List.length_cons, List.length_nil] at length
  omega

theorem bracket_mem_cat (mem : active ∈ selector.options) :
    '[' ∈ cat (selector.content active) := by
  refine mem_cat (List.mem_append_left _ ?_) (by decide)
  refine (isInfix_intercalate (List.mem_map_of_mem mem)).subset ?_
  rw [shown_active]
  exact List.mem_cons_self

theorem answer_bracket {written : Text} (bracket : '[' ∈ written) :
    selector.answer written = none := by
  rw [answer, Option.map_eq_none_iff, List.find?_eq_none]
  intro option mem same
  rw [← of_decide_eq_true same, List.mem_append] at bracket
  rcases bracket with inside | newline
  · exact absurd ((selector.bare option mem).2 '[' inside) (by decide)
  · contradiction

theorem answer_option (mem : active ∈ selector.options) :
    selector.answer (active ++ ['\n']) = some (selector.content active) := by
  rw [answer]
  cases found : selector.options.find? fun option => option ++ ['\n'] = active ++ ['\n'] with
  | none =>
    rw [List.find?_eq_none] at found
    exact absurd (decide_eq_true rfl) (found active mem)
  | some option =>
    have is := List.find?_some found
    rw [List.append_cancel_right (of_decide_eq_true is)]
    rfl

theorem answer_echo_optionWord {word : Text} (option' : optionWord word = true) :
    selector.answer (echo word) = none := by
  rw [answer, Option.map_eq_none_iff, List.find?_eq_none]
  intro option mem same
  have same := of_decide_eq_true same
  have nothing := (selector.bare option mem).1
  rw [echo, if_pos option'] at same
  split at same
  · exact absurd same (List.append_ne_nil_of_right_ne_nil _ (List.cons_ne_nil _ _))
  · exact nothing (List.append_left_eq_self.mp same)

end Reading

section Runs

variable {selector tunable} {state : SysfsState} {active value : Text}

/-- The option is active, and the saved file is as given. -/
structure Shows (selector : Selector) (tunable : Tunable) (state : SysfsState) (active : Text)
    (saved : Option Text) : Prop where
  content : state.content tunable = selector.content active
  saved : state.saved tunable.key = saved

/-- The file that the first run in apply mode saves. -/
def snapshotOf (selector : Selector) (active : Text) : Text := echo (cat (selector.content active))

/-- What was read differs from any option, so each run writes. -/
theorem content_ne_value (listed : active ∈ selector.options) (mem : value ∈ selector.options) :
    cat (selector.content active) ≠ value := by
  intro same
  have bracket := bracket_mem_cat listed
  rw [same] at bracket
  exact absurd ((selector.bare value mem).2 '[' bracket) (by decide)

theorem apply_set (listed : active ∈ selector.options) (mem : value ∈ selector.options)
    (content : state.content tunable = selector.content active) {written : Text}
    (accepted : selector.answer (echo value) = some written) :
    selector.apply tunable value state = (state.snapshot tunable).write tunable written := by
  have differs := content_ne_value listed mem
  simp only [apply, writeSysfs, reduceCtorEq, if_false, false_and, content, accepted]
  rw [if_pos differs]

theorem apply_failed (listed : active ∈ selector.options) (mem : value ∈ selector.options)
    (content : state.content tunable = selector.content active)
    (refused : selector.answer (echo value) = none) :
    selector.apply tunable value state = state.remove tunable.key := by
  have differs := content_ne_value listed mem
  simp only [apply, writeSysfs, reduceCtorEq, if_false, false_and, content, refused]
  rw [if_pos differs, SysfsState.snapshot_remove]

theorem Shows.applied (shows : Shows selector tunable state active none)
    (listed : active ∈ selector.options) (mem : value ∈ selector.options)
    (plain : optionWord value = false) (runs : Nat) :
    Shows selector tunable ((selector.apply tunable value)^[runs + 1] state) value
      (some (selector.snapshotOf active)) := by
  have accepted : selector.answer (echo value) = some (selector.content value) := by
    rw [echo, plain, if_neg Bool.false_ne_true]
    exact answer_option mem
  induction runs with
  | zero =>
    rw [Function.iterate_one, apply_set listed mem shows.content accepted]
    refine ⟨SysfsState.write_self .., ?_⟩
    change (state.snapshot tunable).saved tunable.key = _
    rw [SysfsState.snapshot, if_neg (by simp [shows.saved]), SysfsState.save_self, shows.content,
      snapshotOf]
  | succ runs ih =>
    rw [Function.iterate_succ_apply']
    generalize (selector.apply tunable value)^[runs + 1] state = applied at ih ⊢
    rw [apply_set mem mem ih.content accepted]
    refine ⟨SysfsState.write_self .., ?_⟩
    -- the snapshot of the first run stays
    change (applied.snapshot tunable).saved tunable.key = _
    rw [SysfsState.snapshot, if_pos (by simp [ih.saved]), ih.saved]

/-- Where `echo` swallows the option, every write fails and no snapshot is kept. -/
theorem Shows.unapplied (shows : Shows selector tunable state active none)
    (listed : active ∈ selector.options) (mem : value ∈ selector.options)
    (swallowed : optionWord value = true) (runs : Nat) :
    Shows selector tunable ((selector.apply tunable value)^[runs] state) active none := by
  induction runs with
  | zero => exact shows
  | succ runs ih =>
    rw [Function.iterate_succ_apply', apply_failed listed mem ih.content
      (answer_echo_optionWord swallowed)]
    exact ⟨ih.content, SysfsState.remove_self ..⟩

/-- What was saved is no option, so the write of the revert fails. -/
theorem Shows.reverted (shows : Shows selector tunable state value (some (selector.snapshotOf active)))
    (listed : active ∈ selector.options) (asked : Text) :
    (selector.revert tunable asked state).content tunable = selector.content value := by
  have bracket := bracket_mem_cat listed
  have plain : optionWord (cat (selector.content active)) = false :=
    optionWord_eq_false bracket (by decide)
  have prev : cat (selector.snapshotOf active) = cat (selector.content active) :=
    (cat_echo plain).trans (cat_cat _)
  have refused : selector.answer (echo (cat (selector.content active))) = none := by
    rw [echo, plain, if_neg Bool.false_ne_true]
    exact answer_bracket (List.mem_append_left _ bracket)
  simp only [revert, writeSysfs, reduceCtorEq, if_false, false_and, shows.saved, prev, refused]
  exact shows.content

theorem Shows.kept (shows : Shows selector tunable state active none) (asked : Text) :
    selector.revert tunable asked state = state := by
  simp only [revert, writeSysfs, reduceCtorEq, if_false, false_and, shows.saved]

/-- After any positive number of runs in apply mode and one in revert mode the option that was
active at first is so again just when it is the requested one, or when `echo` swallows that. -/
theorem selector_restored_iff {active value : Text} (listed : active ∈ selector.options)
    (mem : value ∈ selector.options) (initially : Shows selector tunable state active none)
    (runs : Nat) (asked : Text) :
    (selector.revert tunable asked ((selector.apply tunable value)^[runs + 1] state)).content tunable =
      selector.content active ↔ value = active ∨ optionWord value = true := by
  cases swallowed : optionWord value with
  | true =>
    have kept := initially.unapplied listed mem swallowed (runs + 1)
    rw [kept.kept asked]
    exact iff_of_true kept.content (.inr rfl)
  | false =>
    rw [(initially.applied listed mem swallowed runs).reverted listed asked]
    constructor
    · exact fun same => .inl (content_injective mem same)
    · rintro (rfl | impossible)
      · rfl
      · contradiction

end Runs

section Hugepages

/-- `transparent_hugepage/enabled`. -/
def thp : Selector where
  options := ["always".toList, "madvise".toList, "never".toList]
  bare := by simp [isBare]

/-- The option is active and nothing is saved. -/
def thpState (active : Text) : SysfsState := ⟨fun _ => thp.content active, fun _ => none⟩

theorem selector_restored_iff_thp :
    (thp.revert (.fixed .thpEnabled) "madvise".toList
        ((thp.apply (.fixed .thpEnabled) "madvise".toList)^[1 + 1] (thpState "always".toList))).content
          (.fixed .thpEnabled) = thp.content "always".toList ↔
      "madvise".toList = "always".toList ∨ optionWord "madvise".toList = true :=
  selector_restored_iff (by decide) (by decide) ⟨rfl, rfl⟩ 1 _

/-- The requested option stays active, because what was saved shows all options. -/
theorem selector_not_restored : ¬ ∀ (selector : Selector) (tunable : Tunable) (state : SysfsState)
    (active value asked : Text) (runs : Nat), active ∈ selector.options →
    value ∈ selector.options → Shows selector tunable state active none →
    (selector.revert tunable asked ((selector.apply tunable value)^[runs + 1] state)).content tunable =
      selector.content active := by
  intro restored
  have listed : "always".toList ∈ thp.options := by decide
  have requested : "madvise".toList ∈ thp.options := by decide
  have initially : Shows thp (.fixed .thpEnabled) (thpState "always".toList) "always".toList none :=
    ⟨rfl, rfl⟩
  have same := restored thp (.fixed .thpEnabled) _ _ _ [] 0 listed requested initially
  rw [(initially.applied listed requested (by decide) 0).reverted listed] at same
  exact absurd (content_injective requested same) (by decide)

end Hugepages

end Selector
end TradingPipeline.Scripts
