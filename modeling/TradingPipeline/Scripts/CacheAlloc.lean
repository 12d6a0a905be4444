import Mathlib.Data.Rat.Floor
import TradingPipeline.Foundation.Bits
import TradingPipeline.Foundation.Python
import TradingPipeline.Foundation.Rounding

/-! The split of the cache ways in `cache-alloc.sh`, with exact arithmetic on the percentage. -/

set_option autoImplicit false

namespace TradingPipeline.Scripts

open Foundation
open Foundation.Python (shiftLeft formatHex shiftLeft_ofNat formatHex_ofNat)

/-- What the script prints of the split. -/
structure WaySplit where
  hotWays : Int
  noiseWays : Int
  hotCbm : List Char
  noiseCbm : List Char
  deriving DecidableEq

/-- The masks of the two counts, and what is printed. -/
def printSplit (ways : Nat) (hot noise : Int) : Except Python.Error WaySplit := do
  let hotMask := (← shiftLeft ((← shiftLeft 1 hot) - 1) (ways - hot))
  let noiseMask := (← shiftLeft 1 noise) - 1
  .ok ⟨hot, noise, formatHex hotMask, formatHex noiseMask⟩

section Split

variable {K : Type} [Field K] [LinearOrder K] [FloorRing K]

def waySplit (ways minBits : Nat) (hotPct : K) : Except Python.Error WaySplit :=
  let hot := max (truncate (ways * hotPct / 100)) (minBits : Int)
  let noise := max (ways - hot) (minBits : Int)
  let hot := if ways < hot + noise then ways - noise else hot
  printSplit ways hot noise

end Split

section Masks

variable {ways border : Nat}

theorem ones_eq (count : Nat) :
    ((1 <<< count : Nat) : Int) - (1 : Int) = (1 <<< count - 1 : Nat) := by
  have positive : 1 ≤ 1 <<< count := by
    rw [Nat.one_shiftLeft]
    exact Nat.one_le_two_pow
  omega

/-- With counts that add up to the ways no shift fails. -/
theorem printSplit_eq (within : border ≤ ways) :
    printSplit ways (ways - border : Nat) border = .ok ⟨(ways - border : Nat), border,
      hexFormat ((1 <<< (ways - border) - 1) <<< border), hexFormat (1 <<< border - 1)⟩ := by
  have rest : (ways : Int) - (ways - border : Nat) = border := by omega
  have hotShift : shiftLeft 1 ((ways - border : Nat) : Int) =
      .ok ((1 <<< (ways - border) : Nat) : Int) := shiftLeft_ofNat 1 _
  have noiseShift : shiftLeft 1 (border : Int) = .ok ((1 <<< border : Nat) : Int) :=
    shiftLeft_ofNat 1 _
  rw [printSplit, rest, hotShift, noiseShift]
  simp only [bind, Except.bind]
  rw [ones_eq, ones_eq, shiftLeft_ofNat]
  rfl

end Masks

section Partition

variable {K : Type} [Field K] [LinearOrder K] [IsStrictOrderedRing K] [FloorRing K]

/-- The two clamps and the correction leave a hot count that is clamped on both sides. -/
theorem counts_clamped {ways minBits : Int} (share : Int) (room : 2 * minBits ≤ ways) :
    let hot := max share minBits
    let noise := max (ways - hot) minBits
    let final := if ways < hot + noise then ways - noise else hot
    final = max minBits (min (ways - minBits) share) ∧ final + noise = ways := by
  dsimp only
  split_ifs <;> omega

example : waySplit 11 2 (75 : ℚ) = .ok ⟨8, 3, "7f8".toList, "7".toList⟩ := by decide +kernel

end Partition

end TradingPipeline.Scripts
