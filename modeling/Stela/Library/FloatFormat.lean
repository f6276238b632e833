import Mathlib.Data.Rat.Floor
import Mathlib.Data.Int.Log
import Mathlib.Algebra.Order.Round

/-!
# Binary floating-point formats

The finite numbers of a format are rationals; `round` takes a rational to the nearest of them, and to the one
with an even last digit when two are equally near. There is no bound above in `round`: whether its result is
still a number of the format is asked with `Finite`.
-/

namespace Stela.Library

structure FloatFormat where
  /-- Binary digits of the significand. -/
  precision : ℕ
  /-- The exponent of the last digit of the smallest numbers. -/
  minPlace : ℤ
  /-- Every number is below two to this power. -/
  maxExp : ℤ

/-- Numbers of a format, or what a conversion gives in their place. -/
inductive Floating
  | finite (q : ℚ)
  | infinity (neg : Bool)
  | nan
  deriving DecidableEq

def roundHalfEven (q : ℚ) : ℤ :=
  if q - ⌊q⌋ < 1 / 2 then ⌊q⌋
  else if 1 / 2 < q - ⌊q⌋ then ⌊q⌋ + 1
  else if ⌊q⌋ % 2 = 0 then ⌊q⌋ else ⌊q⌋ + 1

namespace FloatFormat

/-- The exponent of the last digit that the format keeps of a number. -/
def place (f : FloatFormat) (q : ℚ) : ℤ := max f.minPlace (Int.log 2 |q| + 1 - f.precision)

def round (f : FloatFormat) (q : ℚ) : ℚ := roundHalfEven (q / 2 ^ f.place q) * 2 ^ f.place q

def IsFinite (f : FloatFormat) (q : ℚ) : Prop := |q| < 2 ^ f.maxExp

instance (f : FloatFormat) (q : ℚ) : Decidable (f.IsFinite q) := inferInstanceAs (Decidable (_ < _))

end FloatFormat

end Stela.Library
