import Mathlib.Algebra.Order.Floor.Ring

/-! Rounding towards zero. -/

set_option autoImplicit false

namespace TradingPipeline.Foundation

universe u

variable {K : Type u} [Ring K] [LinearOrder K] [FloorRing K]

def truncate (x : K) : Int := if 0 ≤ x then ⌊x⌋ else ⌈x⌉

theorem truncate_of_nonneg {x : K} (nonneg : 0 ≤ x) : truncate x = ⌊x⌋ := if_pos nonneg

end TradingPipeline.Foundation
