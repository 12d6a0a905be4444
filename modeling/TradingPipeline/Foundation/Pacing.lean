import Mathlib.Algebra.Order.Monoid.Defs
import Mathlib.Data.List.Basic
import Mathlib.Tactic.GCongr

/-! Rounds that are paced by a due time.

A round starts no earlier than it is due. From round to round the due time moves on by at least the
period, and it never falls back behind a start by more than the lag.
-/

set_option autoImplicit false

namespace TradingPipeline.Foundation

universe u

section Last

variable {α : Type u} {items : List α} {last item : α} {position : Nat}

theorem getElem?_concat_cases (is : (items ++ [last])[position]? = some item) :
    items[position]? = some item ∨ position = items.length ∧ last = item := by
  rcases Nat.lt_or_ge position items.length with inner | outer
  · exact .inl (by rwa [List.getElem?_append_left inner] at is)
  · have bound := (List.getElem?_eq_some_iff.mp is).1
    rw [List.length_append, List.length_singleton] at bound
    obtain rfl : position = items.length := by omega
    rw [List.getElem?_concat_length, Option.some.injEq] at is
    exact .inr ⟨rfl, is⟩

end Last

variable {T : Type u} [AddCommMonoid T] [PartialOrder T]

/-- After rounds with these starts the next one is due. -/
inductive Paced (period lag first : T) : List T → T → Prop where
  | idle : Paced period lag first [] first
  | round {starts : List T} {due start next : T}
      (paced : Paced period lag first starts due) (ready : due ≤ start)
      (later : due + period ≤ next) (near : start ≤ next + lag) :
      Paced period lag first (starts ++ [start]) next

namespace Paced

variable [IsOrderedAddMonoid T] {period lag first due : T} {starts : List T}

theorem due_ge (paced : Paced period lag first starts due) :
    first + starts.length • period ≤ due := by
  induction paced with
  | idle => simp
  | @round starts due start next _ _ later _ ih =>
    calc first + (starts ++ [start]).length • period
        = first + starts.length • period + period := by
          rw [List.length_append, List.length_singleton, succ_nsmul, add_assoc]
      _ ≤ due + period := by gcongr
      _ ≤ next := later

theorem start_ge (paced : Paced period lag first starts due) {position : Nat} {start : T}
    (is : starts[position]? = some start) : first + position • period ≤ start := by
  induction paced with
  | idle => contradiction
  | round earlier ready _ _ ih =>
    rcases getElem?_concat_cases is with inner | ⟨rfl, rfl⟩
    · exact ih inner
    · exact earlier.due_ge.trans ready

/-- The due time is as many periods behind a start as there are rounds between, up to the lag. -/
theorem due_behind (paced : Paced period lag first starts due) {position : Nat} {start : T}
    (is : starts[position]? = some start) :
    start + (starts.length - position - 1) • period ≤ due + lag := by
  induction paced with
  | idle => contradiction
  | @round starts due last next _ _ later near ih =>
    rcases getElem?_concat_cases is with inner | ⟨rfl, rfl⟩
    · have bound := (List.getElem?_eq_some_iff.mp inner).1
      have more : (starts ++ [last]).length - position - 1 =
          (starts.length - position - 1) + 1 := by
        rw [List.length_append, List.length_singleton]
        omega
      calc start + ((starts ++ [last]).length - position - 1) • period
          = start + (starts.length - position - 1) • period + period := by
            rw [more, succ_nsmul, add_assoc]
        _ ≤ due + lag + period := add_le_add (ih inner) le_rfl
        _ = due + period + lag := add_right_comm _ _ _
        _ ≤ next + lag := by gcongr
    · simpa using near

/-- In any window all periods but one lie between two starts, up to the lag. -/
theorem window (paced : Paced period lag first starts due) {earlier later : Nat} {begin finish : T}
    (less : earlier < later) (begins : starts[earlier]? = some begin)
    (ends : starts[later]? = some finish) :
    begin + (later - earlier - 1) • period ≤ finish + lag := by
  induction paced with
  | idle => contradiction
  | @round starts due last next paced ready _ _ ih =>
    rcases getElem?_concat_cases begins with inner | ⟨rfl, rfl⟩
    · rcases getElem?_concat_cases ends with inside | ⟨rfl, rfl⟩
      · exact ih inner inside
      · calc begin + (starts.length - earlier - 1) • period
            ≤ due + lag := paced.due_behind inner
          _ ≤ last + lag := by gcongr
    · have bound := (List.getElem?_eq_some_iff.mp ends).1
      rw [List.length_append, List.length_singleton] at bound
      omega

end Paced

end TradingPipeline.Foundation
