import Mathlib.Algebra.Order.Field.Basic
import Mathlib.Algebra.Order.AbsoluteValue.Basic

/-! Exact numbers with the special values of floating point.

The arithmetic of a field is exact. What the IEEE rules add are signed infinities and `NaN`:
a division by zero is infinite, or `NaN` where nothing is divided, and no comparison with
`NaN` holds. Zero has one sign.
-/

set_option autoImplicit false

namespace TradingPipeline.Foundation

universe u

inductive Extended (K : Type u) where
  | finite (value : K)
  | infinite (negative : Bool)
  | nan
  deriving DecidableEq

namespace Extended

variable {K : Type u} [Field K]

def neg : Extended K → Extended K
  | finite x => finite (-x)
  | infinite negative => infinite !negative
  | nan => nan

def add : Extended K → Extended K → Extended K
  | finite x, finite y => finite (x + y)
  | infinite x, infinite y => if x = y then infinite x else nan
  | infinite x, finite _ | finite _, infinite x => infinite x
  | nan, _ | _, nan => nan

def sub (first second : Extended K) : Extended K := first.add second.neg

variable [LinearOrder K]

def mul : Extended K → Extended K → Extended K
  | finite x, finite y => finite (x * y)
  | infinite x, infinite y => infinite (x ^^ y)
  | infinite x, finite y | finite y, infinite x => if y = 0 then nan else infinite (x ^^ decide (y < 0))
  | nan, _ | _, nan => nan

def div : Extended K → Extended K → Extended K
  | finite x, finite y =>
    if y = 0 then if x = 0 then nan else infinite (x < 0) else finite (x / y)
  | infinite x, finite y => infinite (x ^^ decide (y < 0))
  | finite _, infinite _ => finite 0
  | infinite _, infinite _ | nan, _ | _, nan => nan

def abs : Extended K → Extended K
  | finite x => finite |x|
  | infinite _ => infinite false
  | nan => nan

def lt : Extended K → Extended K → Bool
  | finite x, finite y => x < y
  | infinite x, infinite y => x && !y
  | infinite x, finite _ => x
  | finite _, infinite y => !y
  | nan, _ | _, nan => false

/-- The number is finite and has the property. -/
def Satisfies (property : K → Prop) : Extended K → Prop
  | finite x => property x
  | _ => False

instance (property : K → Prop) [DecidablePred property] :
    (number : Extended K) → Decidable (number.Satisfies property)
  | finite x => inferInstanceAs (Decidable (property x))
  | infinite _ | nan => inferInstanceAs (Decidable False)

section Laws

variable (x y : K)

omit [LinearOrder K] in
@[simp] theorem add_finite : add (finite x) (finite y) = finite (x + y) := rfl

omit [LinearOrder K] in
@[simp] theorem sub_finite : sub (finite x) (finite y) = finite (x - y) := by
  rw [sub, neg, add_finite, sub_eq_add_neg]

@[simp] theorem mul_finite : mul (finite x) (finite y) = finite (x * y) := rfl

theorem div_finite {y : K} (nonzero : y ≠ 0) : div (finite x) (finite y) = finite (x / y) :=
  if_neg nonzero

theorem div_finite_zero : div (finite x) (finite 0) = if x = 0 then nan else infinite (x < 0) :=
  if_pos rfl

@[simp] theorem abs_finite : abs (finite x) = finite |x| := rfl

omit [Field K] in
@[simp] theorem lt_finite : lt (finite x) (finite y) = decide (x < y) := rfl

end Laws

end Extended
end TradingPipeline.Foundation
