-- SUMMARY: Decimal numerals: reading them from text, and converting them to doubles and back.
import MetricLang.Double.Rounding

/-!
# Decimal numerals

A numeral is an optional sign, digits with an optional point among or around
them, and an optional power of ten. Reading converts it to the nearest double.
Printing uses no power of ten. It rounds to fifteen places and leaves out what
does not count: a sign of zero, zeros at the end of the places, and a point
without places after it.
-/

namespace MetricLang

/-- The number `± coefficient * 10 ^ exponent`. -/
structure Decimal where
  negative : Bool
  coefficient : Nat
  exponent : Int
  deriving DecidableEq

namespace Decimal

-- ---------------------------------------------------------------------------
-- Reading
-- ---------------------------------------------------------------------------

/-- Takes an optional sign; the flag says whether it was a minus. -/
def takeSign : List Char → Bool × List Char
  | '-' :: cs => (true, cs)
  | '+' :: cs => (false, cs)
  | cs => (false, cs)

/-- The number that decimal digits stand for. -/
def ofDigits (cs : List Char) : Nat := Nat.ofDigitChars 10 cs 0

/-- The power of ten at the end of a numeral; nothing at all stands for zero. -/
def readExponent? : List Char → Option Int
  | [] => some 0
  | c :: cs =>
    let sign := takeSign cs
    if (c = 'e' ∨ c = 'E') ∧ sign.2 ≠ [] ∧ sign.2.all Char.isDigit then
      some (if sign.1 then -(ofDigits sign.2 : Int) else ofDigits sign.2)
    else none

/-- Splits off a point and the digits after it, of which there may be none. -/
def splitPlaces : List Char → List Char × List Char
  | '.' :: cs => (cs.takeWhile Char.isDigit, cs.dropWhile Char.isDigit)
  | cs => ([], cs)

/-- Reads a whole text as a numeral. Digits may be missing before or after the
    point, not on both sides. -/
def read? (cs : List Char) : Option Decimal :=
  let sign := takeSign cs
  let whole := sign.2.takeWhile Char.isDigit
  let places := splitPlaces (sign.2.dropWhile Char.isDigit)
  if whole = [] ∧ places.1 = [] then none
  else (readExponent? places.2).map fun e =>
    ⟨sign.1, ofDigits (whole ++ places.1), e - places.1.length⟩

/-- The nearest double, if it is finite. Far beyond the range of the doubles the
    answer is known without computing the power of ten. -/
def toDouble? (d : Decimal) : Option Double :=
  if d.coefficient = 0 ∨ d.coefficient.log2 + 325 ≤ -d.exponent then some (.zero d.negative)
  else if 309 ≤ d.exponent then none
  else Double.nearest? d.negative (d.coefficient * Nat.pow 10 d.exponent.toNat)
    (Nat.pow 10 (-d.exponent).toNat)

end Decimal

namespace Double

/-- Reads a numeral as the nearest double; a numeral too large for a finite one
    is no number. -/
def read? (cs : List Char) : Option Double :=
  (Decimal.read? cs).bind Decimal.toDouble?

-- ---------------------------------------------------------------------------
-- Printing
-- ---------------------------------------------------------------------------

/-- How many decimal places a printed number has at most. -/
def places : Nat := 15

/-- The absolute value of a finite double in units of `10 ^ -places`, rounded. -/
def scaled (d : Double) : Nat := roundDiv (d.units * Nat.pow 10 places) (1 <<< 1074)

/-- The lowest `k` decimal digits of `n`, with leading zeros. -/
def lastDigits : Nat → Nat → List Char
  | 0, _ => []
  | k + 1, n => lastDigits k (n / 10) ++ [Nat.digitChar (n % 10)]

/-- Drops the zeros at the end. -/
def trimZeros (cs : List Char) : List Char :=
  (cs.reverse.dropWhile (· = '0')).reverse

/-- The point and the digits after it, if any count. -/
def placesText (n : Nat) : List Char :=
  match trimZeros (lastDigits places n) with
  | [] => []
  | cs => '.' :: cs

/-- How a finite double is printed. -/
def finiteText (d : Double) : List Char :=
  (if d.negative ∧ d.scaled ≠ 0 then ['-'] else [])
    ++ Nat.toDigits 10 (d.scaled / Nat.pow 10 places) ++ placesText d.scaled

/-- How a double is printed. -/
def text (d : Double) : String :=
  if d.isNaN then "NaN"
  else if d.isFinite then String.ofList d.finiteText
  else if d.negative then "-inf" else "inf"

end Double

end MetricLang
