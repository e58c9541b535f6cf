-- SUMMARY: Division rounded to the nearest whole number, and the double nearest to a quotient.
import MetricLang.Double.Basic

/-!
# Rounding

`roundDiv` rounds a quotient to a whole number, halves to the even neighbour.
`Double.nearest?` rounds a quotient to a double by the same rule: it shifts the
quotient until at most 53 bits are left of it and rounds once. Rounding up past
53 bits carries into the exponent, because the magnitudes of the next power of
two follow on directly.
-/

namespace MetricLang

/-- `num / den` rounded to the nearest whole number, a half to the even neighbour. -/
def roundDiv (num den : Nat) : Nat :=
  let q := num / den
  let r := num % den
  if 2 * r < den ∨ (2 * r = den ∧ q % 2 = 0) then q else q + 1

namespace Double

/-- The magnitude nearest to `num / den`, as if exponents had no upper limit. -/
def nearestMagnitude (num den : Nat) : Nat :=
  let scaled := num <<< 1074
  let shift := (scaled / den).log2 + 1 - 53
  shift * exponentBit + roundDiv scaled (den <<< shift)

/-- The double nearest to `num / den` with the given sign, if it is finite. -/
def nearest? (negative : Bool) (num den : Nat) : Option Double :=
  let magnitude := nearestMagnitude num den
  if h : magnitude < infinity then
    some ⟨negative, magnitude, Nat.lt_trans h (by decide)⟩
  else none

end Double

end MetricLang
