import Mathlib.Data.List.Basic

/-! The extremes of a list, and its order statistics, told by counting. -/

set_option autoImplicit false

namespace TradingPipeline.Foundation

universe u

variable {α : Type u}

section Extreme

variable {le : α → α → Prop} {initial value other : α} {values : List α}

/-- The value comes first in the order, or is the initial one when there are no values. -/
def IsExtreme (le : α → α → Prop) (initial value : α) (values : List α) : Prop :=
  (values = [] ∧ value = initial ∨ value ∈ values) ∧ ∀ other ∈ values, le value other

/-- Of the extreme so far and one more value, the one that comes first is the next extreme. -/
theorem IsExtreme.concat {next : α} (extreme : IsExtreme le initial value values)
    (trans : ∀ {first second third}, le first second → le second third → le first third)
    (antisymm : ∀ {first second}, le first second → le second first → first = second)
    (bound : le other initial) (chosen : next = other ∨ next = value) (before : le next value)
    (beforeOther : le next other) : IsExtreme le initial next (values ++ [other]) := by
  constructor
  · right
    rcases chosen with rfl | rfl
    · exact List.mem_append_right _ (List.mem_singleton_self _)
    · rcases extreme.1 with ⟨_, rfl⟩ | among
      · -- the first value is its own extreme
        rw [antisymm beforeOther bound]
        exact List.mem_append_right _ (List.mem_singleton_self _)
      · exact List.mem_append_left _ among
  · intro sample member
    rcases List.mem_append.mp member with old | new
    · exact trans before (extreme.2 sample old)
    · rwa [List.mem_singleton.mp new]

theorem IsExtreme.unique (extreme : IsExtreme le initial value values)
    (antisymm : ∀ {first second}, le first second → le second first → first = second)
    (again : IsExtreme le initial other values) : other = value := by
  rcases extreme.1 with ⟨rfl, is⟩ | among
  · rw [is]
    exact (again.1.resolve_right List.not_mem_nil).2
  · rcases again.1 with ⟨rfl, _⟩ | amongOther
    · exact absurd among List.not_mem_nil
    · exact antisymm (again.2 _ among) (extreme.2 _ amongOther)

theorem IsExtreme.perm {permuted : List α} (extreme : IsExtreme le initial value values)
    (perm : values.Perm permuted) : IsExtreme le initial value permuted := by
  refine ⟨extreme.1.imp ?_ perm.mem_iff.mp, fun sample member => ?_⟩
  · exact fun none => ⟨(none.1 ▸ perm.symm).eq_nil, none.2⟩
  · exact extreme.2 _ (perm.mem_iff.mpr member)

end Extreme

section Prefix

variable {holds : α → Bool}

theorem countP_eq_zero_of_head {head : α} {rest : List α}
    (mono : (head :: rest).Pairwise fun earlier later => holds later = true → holds earlier = true)
    (fails : holds head = false) : (head :: rest).countP holds = 0 := by
  rw [List.countP_eq_zero]
  intro value member
  rcases List.mem_cons.mp member with rfl | later
  · simp [fails]
  · intro is
    have first := (List.pairwise_cons.mp mono).1 value later is
    rw [fails] at first
    contradiction

theorem holds_iff_lt_countP {values : List α} {index : Nat} {value : α}
    (mono : values.Pairwise fun earlier later => holds later = true → holds earlier = true)
    (at' : values[index]? = some value) : holds value = true ↔ index < values.countP holds := by
  induction values generalizing index with
  | nil => simp at at'
  | cons head rest ih =>
    cases fails : holds head with
    | false =>
      -- the front part is empty
      have none' := countP_eq_zero_of_head mono fails
      rw [none']
      constructor
      · intro is
        have counted : 0 < (head :: rest).countP holds :=
          List.countP_pos_iff.mpr ⟨value, List.mem_of_getElem? at', is⟩
        omega
      · exact fun less => absurd less (Nat.not_lt_zero _)
    | true =>
      rw [List.countP_cons_of_pos fails]
      cases index with
      | zero =>
        cases at'
        simp [fails]
      | succ index =>
        rw [ih (List.pairwise_cons.mp mono).2 at']
        omega

end Prefix

section Statistic

variable [LE α] [DecidableLE α]

/-- The `rank`-th smallest value, counted from one. -/
def orderStatistic (rank : Nat) (values : List α) : Option α :=
  (values.mergeSort fun first second => first ≤ second)[rank - 1]?

theorem exists_orderStatistic {rank : Nat} {values : List α} (positive : 0 < rank)
    (within : rank ≤ values.length) : ∃ value, orderStatistic rank values = some value := by
  have bound : rank - 1 < (values.mergeSort fun first second => first ≤ second).length := by
    rw [List.length_mergeSort]
    omega
  exact ⟨_, List.getElem?_eq_getElem bound⟩

theorem orderStatistic_mem {rank : Nat} {values : List α} {value : α}
    (is : orderStatistic rank values = some value) : value ∈ values :=
  (List.mergeSort_perm values _).mem_iff.mp (List.mem_of_getElem? is)

variable [Std.IsLinearOrder α]

theorem pairwise_le_mergeSort (values : List α) :
    (values.mergeSort fun first second => first ≤ second).Pairwise
      fun earlier later => earlier ≤ later := by
  refine (List.pairwise_mergeSort ?_ ?_ values).imp of_decide_eq_true
  · intro first second third le le'
    exact decide_eq_true (Std.le_trans (of_decide_eq_true le) (of_decide_eq_true le'))
  · intro first second
    simpa using Std.le_total

/-- The `rank`-th smallest value lies below a bound when so many values do. -/
theorem orderStatistic_le_iff {rank : Nat} {values : List α} {value : α} (positive : 0 < rank)
    (is : orderStatistic rank values = some value) (bound : α) :
    value ≤ bound ↔ rank ≤ values.countP fun other => other ≤ bound := by
  have sorted := pairwise_le_mergeSort values
  have mono := sorted.imp fun {earlier later} le (below : decide (later ≤ bound) = true) =>
    decide_eq_true (Std.le_trans le (of_decide_eq_true below))
  have told := holds_iff_lt_countP mono is
  rw [(List.mergeSort_perm values _).countP_eq, decide_eq_true_iff] at told
  rw [told]
  omega

theorem orderStatistic_mono {rank higher : Nat} {values : List α} {value other : α}
    (positive : 0 < rank) (le : rank ≤ higher) (is : orderStatistic rank values = some value)
    (isOther : orderStatistic higher values = some other) : value ≤ other := by
  have reached : higher ≤ values.countP fun sample => sample ≤ other :=
    (orderStatistic_le_iff (Nat.lt_of_lt_of_le positive le) isOther other).mp (Std.le_refl other)
  exact (orderStatistic_le_iff positive is other).mpr (Nat.le_trans le reached)

end Statistic

end TradingPipeline.Foundation
