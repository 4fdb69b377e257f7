import Mathlib

/-!
# Signed 64-bit integers

Counters and identifiers are integers with their machine bounds written out. Two operations of
the machine type need more than a bound check: subtraction that saturates, and conversion that
saturates.
-/

set_option autoImplicit false

namespace I64

/-- The largest signed 64-bit integer. -/
def maxValue : Int := 2 ^ 63 - 1

/-- The smallest signed 64-bit integer. -/
def minValue : Int := -2 ^ 63

/-- Subtraction that stops at the bounds instead of wrapping. -/
def saturatingSub (a b : Int) : Int := max minValue (min maxValue (a - b))

/-- A natural number, cut to the largest integer of the type. -/
def ofNatClamped (n : Nat) : Int := if (n : Int) ≤ maxValue then n else maxValue

end I64
