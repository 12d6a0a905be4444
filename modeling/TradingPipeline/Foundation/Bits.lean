import Mathlib.Data.Finset.Fold
import Mathlib.Data.Nat.Bitwise

/-! Bit masks as sets of positions. -/

set_option autoImplicit false

namespace TradingPipeline.Foundation

/-- The mask has exactly the bits from `low` on and below `high`. -/
def IsRun (mask low high : Nat) : Prop := ∀ bit, mask.testBit bit = true ↔ low ≤ bit ∧ bit < high

section Runs

variable {mask other low middle high : Nat}

theorem isRun_ones (count : Nat) : IsRun (1 <<< count - 1) 0 count := by
  intro bit
  rw [Nat.one_shiftLeft, Nat.testBit_two_pow_sub_one, decide_eq_true_iff]
  exact ⟨fun less => ⟨Nat.zero_le _, less⟩, fun within => within.2⟩

theorem IsRun.shiftLeft (run : IsRun mask low high) (shift : Nat) :
    IsRun (mask <<< shift) (low + shift) (high + shift) := by
  intro bit
  rw [Nat.testBit_shiftLeft, Bool.and_eq_true, decide_eq_true_iff, run]
  omega

theorem IsRun.unique (run : IsRun mask low high) (again : IsRun other low high) : mask = other :=
  Nat.eq_of_testBit_eq fun bit => Bool.eq_iff_iff.mpr ((run bit).trans (again bit).symm)

theorem IsRun.disjoint (below : IsRun mask low middle) (above : IsRun other middle high) :
    mask &&& other = 0 := by
  refine Nat.eq_of_testBit_eq fun bit => ?_
  rw [Nat.testBit_and, Nat.zero_testBit, ← Bool.not_eq_true, Bool.and_eq_true, below, above]
  omega

theorem IsRun.union (below : IsRun mask low middle) (above : IsRun other middle high)
    (le : low ≤ middle) (ge : middle ≤ high) : IsRun (mask ||| other) low high := by
  intro bit
  rw [Nat.testBit_or, Bool.or_eq_true, below, above]
  omega

end Runs

section Sets

variable (positions : Finset Nat)

/-- One bit for each position. -/
def maskOf : Nat := positions.fold (· ||| ·) 0 fun position => 1 <<< position

theorem testBit_maskOf (bit : Nat) : (maskOf positions).testBit bit = true ↔ bit ∈ positions := by
  unfold maskOf
  induction positions using Finset.induction_on with
  | empty => simp
  | insert position rest fresh ih =>
    rw [Finset.fold_insert fresh, Nat.testBit_or, Bool.or_eq_true, ih, Nat.one_shiftLeft,
      Nat.testBit_two_pow, decide_eq_true_iff, Finset.mem_insert, eq_comm]

end Sets

end TradingPipeline.Foundation
