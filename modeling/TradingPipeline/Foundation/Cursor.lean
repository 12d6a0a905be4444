import Mathlib.Data.Nat.ModEq
import Mathlib.Tactic.Ring

/-! Free-running `u64` cursors over a circular array.

A cursor counts without bound and is stored modulo `2^64`. Differences of nearby cursors
and equality of nearby cursors are exact even after the stored word has wrapped.
-/

set_option autoImplicit false

namespace TradingPipeline.Foundation.Cursor

theorem ofNat_succ (count : Nat) : UInt64.ofNat count + 1 = UInt64.ofNat (count + 1) := by
  rw [UInt64.ofNat_add]
  rfl

theorem toNat_distance (low high : Nat) (le : low ≤ high) (near : high - low < 2 ^ 64) :
    (UInt64.ofNat high - UInt64.ofNat low).toNat = high - low := by
  simp only [UInt64.toNat_sub, UInt64.toNat_ofNat']
  omega

theorem ofNat_inj (low high : Nat) (le : low ≤ high) (near : high - low < 2 ^ 64)
    (same : UInt64.ofNat high = UInt64.ofNat low) : high = low := by
  have distance := toNat_distance low high le near
  rw [same, UInt64.sub_self] at distance
  have zero : (0 : UInt64).toNat = 0 := rfl
  omega

/-- The cell of a circular array that holds element `count`. -/
def cell (capacity : Nat) [NeZero capacity] (count : Nat) : Fin capacity :=
  ⟨count % capacity, Nat.mod_lt _ (NeZero.pos capacity)⟩

theorem cell_ne {capacity low high : Nat} [NeZero capacity] (lt : low < high)
    (near : high < low + capacity) : cell capacity high ≠ cell capacity low := by
  intro same
  have congruent : high ≡ low [MOD capacity] := congrArg Fin.val same
  have divides : capacity ∣ high - low := (Nat.modEq_iff_dvd' (Nat.le_of_lt lt)).mp congruent.symm
  have := Nat.le_of_dvd (by omega) divides
  omega

theorem cell_add_capacity (capacity count : Nat) [NeZero capacity] :
    cell capacity (count + capacity) = cell capacity count :=
  Fin.ext (Nat.add_mod_right count capacity)

end TradingPipeline.Foundation.Cursor
