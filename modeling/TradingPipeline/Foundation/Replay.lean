import TradingPipeline.Foundation.Transition

/-! Reading a published sequence with a reader that may crash.

The reader copies the item at its committed position and then commits. A crash between
the two forgets the copy, so the next reader copies the same item again. Nothing else can
go wrong: what has been copied is a beginning of what was published, with at most one
repetition, next to the original, for each crash.
-/

set_option autoImplicit false

namespace TradingPipeline.Foundation.Replay

variable {α : Type}

inductive Event (α : Type) where
  | publish (item : α)
  | copy (item : α)
  | commit
  | crash
  deriving DecidableEq, Repr

structure Log (α : Type) where
  published : List α
  committed : Nat
  /-- The item at the committed position has been copied by the present reader. -/
  pending : Bool
  deriving DecidableEq, Repr

def accept [DecidableEq α] (log : Log α) : Event α → Option (Log α)
  | .publish item => some { log with published := log.published ++ [item] }
  | .copy item =>
    if log.pending = false ∧ log.published[log.committed]? = some item then
      some { log with pending := true }
    else none
  | .commit =>
    if log.pending = true then
      some { log with committed := log.committed + 1, pending := false }
    else none
  | .crash => some { log with pending := false }

def object (α : Type) [DecidableEq α] : System (Log α) (Event α) (Event α) where
  start := ⟨[], 0, false⟩
  step log event := (accept log event).map fun next => (next, [event])

def copies (history : List (Event α)) : List α :=
  history.filterMap fun | .copy item => some item | _ => none

def publishes (history : List (Event α)) : List α :=
  history.filterMap fun | .publish item => some item | _ => none

def crashes (history : List (Event α)) : Nat :=
  history.countP fun | .crash => true | _ => false

/-- The beginning of `source` in which item `k` occurs `repeats[k]` extra times, each next
to the original. -/
def stutter : List Nat → List α → List α
  | extra :: repeats, item :: source => List.replicate (extra + 1) item ++ stutter repeats source
  | _, _ => []

section Stutter

variable {source : List α} {repeats : List Nat} {item : α}

theorem stutter_append_source (within : repeats.length ≤ source.length) (more : List α) :
    stutter repeats (source ++ more) = stutter repeats source := by
  induction repeats generalizing source with
  | nil => simp [stutter]
  | cons extra repeats ih =>
    cases source with
    | nil => simp at within
    | cons item source =>
      simp only [List.cons_append, stutter, ih (Nat.le_of_succ_le_succ within)]

theorem stutter_append_repeats (is : source[repeats.length]? = some item) (extra : Nat) :
    stutter (repeats ++ [extra]) source =
      stutter repeats source ++ List.replicate (extra + 1) item := by
  induction repeats generalizing source with
  | nil =>
    cases source with
    | nil => simp at is
    | cons first source =>
      simp only [List.length_nil, List.getElem?_cons_zero, Option.some.injEq] at is
      simp [stutter, is]
  | cons other repeats ih =>
    cases source with
    | nil => simp at is
    | cons first source =>
      simp only [List.length_cons, List.getElem?_cons_succ] at is
      simp only [List.cons_append, stutter, ih is, List.append_assoc]

theorem stutter_again (is : source[repeats.length]? = some item) (extra : Nat) :
    stutter (repeats ++ [extra + 1]) source = stutter (repeats ++ [extra]) source ++ [item] := by
  rw [stutter_append_repeats is, stutter_append_repeats is, List.replicate_succ',
    List.append_assoc]

end Stutter

section Laws

variable [DecidableEq α] {log : Log α} {history : List (Event α)}

/-- The copies made so far stutter along the published items. A copy that a crash has
forgotten is paid for by that crash when it is made again. -/
structure Copied (log : Log α) (history : List (Event α)) (repeats : List Nat) : Prop where
  copies : copies history = stutter repeats log.published
  within : repeats.length ≤ log.published.length
  budget : repeats.sum ≤ crashes history
  position : repeats.length = log.committed + 1 ∧
      (log.pending = true ∨ repeats.sum + 1 ≤ crashes history) ∨
    repeats.length = log.committed ∧ log.pending = false

theorem copied_step {next : Log α} {event : Event α} {repeats : List Nat}
    (copied : Copied log history repeats) (accepted : accept log event = some next) :
    ∃ repeats, Copied next (history ++ [event]) repeats := by
  obtain ⟨copies, within, budget, position⟩ := copied
  cases event with
  | publish item =>
    simp only [accept, Option.some.injEq] at accepted
    subst accepted
    refine ⟨repeats, ?_, by simp; omega, by simpa [crashes] using budget,
      by simpa [crashes] using position⟩
    rw [stutter_append_source within]
    simpa [Replay.copies] using copies
  | copy item =>
    simp only [accept, Option.ite_none_right_eq_some, Option.some.injEq] at accepted
    obtain ⟨⟨fresh, is⟩, rfl⟩ := accepted
    have bound := (List.getElem?_eq_some_iff.mp is).1
    have more : Replay.copies (history ++ [.copy item]) = Replay.copies history ++ [item] := by
      simp [Replay.copies]
    have same : crashes (history ++ [.copy item]) = crashes history := by simp [crashes]
    rcases position with ⟨length, left | spare⟩ | ⟨length, _⟩
    · simp [left] at fresh
    · -- the copy was made before and forgotten: repeat it
      obtain ⟨earlier, extra, rfl⟩ : ∃ earlier extra, repeats = earlier ++ [extra] :=
        ⟨_, _, (List.dropLast_concat_getLast (by intro none; simp [none] at length)).symm⟩
      simp only [List.length_append, List.length_singleton, Nat.add_right_cancel_iff] at length
      simp only [List.sum_append, List.sum_singleton] at budget spare
      refine ⟨earlier ++ [extra + 1], ?_, ?_, ?_, .inl ⟨by simp [length], .inl rfl⟩⟩
      · rw [more, stutter_again (length ▸ is), copies]
      · simp only [List.length_append, List.length_singleton] at within ⊢
        exact within
      · simp only [same, List.sum_append, List.sum_singleton]
        omega
    · refine ⟨repeats ++ [0], ?_, ?_, ?_, .inl ⟨by simp [length], .inl rfl⟩⟩
      · rw [more, stutter_append_repeats (length ▸ is), copies]
        rfl
      · simp only [List.length_append, List.length_singleton]
        omega
      · simpa [same] using budget
  | commit =>
    simp only [accept, Option.ite_none_right_eq_some, Option.some.injEq] at accepted
    obtain ⟨pending, rfl⟩ := accepted
    refine ⟨repeats, by simpa [Replay.copies] using copies, within,
      by simpa [crashes] using budget, .inr ⟨?_, rfl⟩⟩
    rcases position with ⟨length, _⟩ | ⟨_, idle⟩
    · exact length
    · simp [pending] at idle
  | crash =>
    simp only [accept, Option.some.injEq] at accepted
    subst accepted
    have more : crashes (history ++ [.crash]) = crashes history + 1 := by simp [crashes]
    refine ⟨repeats, by simpa [Replay.copies] using copies, within, by omega, ?_⟩
    rcases position with ⟨length, _⟩ | ⟨length, _⟩
    · exact .inl ⟨length, .inr (by omega)⟩
    · exact .inr ⟨length, rfl⟩

theorem publishes_eq (reach : (object α).Reachable log history) :
    publishes history = log.published := by
  induction reach with
  | start => rfl
  | @next _ _ _ _ event _ _ step ih =>
    simp only [object, Option.map_eq_some_iff, Prod.mk.injEq] at step
    obtain ⟨_, accepted, rfl, rfl⟩ := step
    simp only [publishes, List.filterMap_append] at ih ⊢
    rw [ih]
    cases event <;> simp only [accept, Option.ite_none_right_eq_some, Option.some.injEq]
        at accepted
    case publish => subst accepted; simp
    case crash => subst accepted; simp
    case copy => obtain ⟨_, rfl⟩ := accepted; simp
    case commit => obtain ⟨_, rfl⟩ := accepted; simp

/-- The copies are a beginning of the published items with at most one adjacent
repetition for each crash. -/
theorem copies_stutter (reach : (object α).Reachable log history) :
    ∃ repeats, copies history = stutter repeats (publishes history) ∧
      repeats.length ≤ (publishes history).length ∧ repeats.sum ≤ crashes history := by
  have copied : ∃ repeats, Copied log history repeats := by
    refine reach.invariant (fun log history => ∃ repeats, Copied log history repeats) ?_ ?_
    · exact ⟨[], rfl, Nat.le_refl _, Nat.le_refl _, .inr ⟨rfl, rfl⟩⟩
    · intro log history event next events _ ⟨repeats, copied⟩ _ step
      simp only [object, Option.map_eq_some_iff, Prod.mk.injEq] at step
      obtain ⟨_, accepted, rfl, rfl⟩ := step
      exact copied_step copied accepted
  obtain ⟨repeats, copied⟩ := copied
  rw [publishes_eq reach]
  exact ⟨repeats, copied.copies, copied.within, copied.budget⟩

end Laws
end TradingPipeline.Foundation.Replay
