-- SUMMARY: Binary64 numbers by their bit pattern: classes, exact value, and comparison.

/-!
# Doubles

A double is a sign bit and a 63-bit magnitude. Below `infinity` the magnitude
stands for a finite value, a whole number of units of `2 ^ -1074`; `infinity`
itself is infinite, and everything above it is no number. Magnitudes are ordered
as the values are, so that rounding can work on them directly.
-/

namespace MetricLang

/-- A binary64 number: its sign bit, and its other 63 bits read as a number. -/
structure Double where
  negative : Bool
  magnitude : Nat
  magnitude_lt : magnitude < 0x8000000000000000
  deriving DecidableEq

namespace Double

/-- The sign bit of a bit pattern. -/
def signBit : Nat := 0x8000000000000000

/-- The lowest bit of the exponent. The fraction has the bits below it, and in all
    but the least magnitudes this bit belongs to the value as well. -/
def exponentBit : Nat := 0x10000000000000

/-- The magnitude of the two infinities. -/
def infinity : Nat := 0x7ff0000000000000

def isFinite (d : Double) : Bool := d.magnitude < infinity

def isNaN (d : Double) : Bool := infinity < d.magnitude

def isZero (d : Double) : Bool := d.magnitude = 0

/-- Zero with the given sign. -/
def zero (negative : Bool) : Double := ⟨negative, 0, by decide⟩

/-- The value of a finite magnitude, in units of `2 ^ -1074`. -/
def unitsOf (magnitude : Nat) : Nat :=
  let exponent := magnitude / exponentBit
  let fraction := magnitude % exponentBit
  if exponent = 0 then fraction else (exponentBit + fraction) <<< (exponent - 1)

/-- The absolute value of a finite double, in units of `2 ^ -1074`. -/
def units (d : Double) : Nat := unitsOf d.magnitude

/-- Numeric equality: the two zeros are equal, and no NaN equals anything. -/
def equal (a b : Double) : Bool :=
  !a.isNaN && !b.isNaN && ((a.isZero && b.isZero) || a = b)

instance : BEq Double := ⟨equal⟩

-- ---------------------------------------------------------------------------
-- Bit patterns
-- ---------------------------------------------------------------------------

/-- The double with the given bit pattern; bits above the lowest 64 are ignored. -/
def ofBits (bits : Nat) : Double :=
  ⟨bits / signBit % 2 = 1, bits % signBit, Nat.mod_lt _ (by decide)⟩

def toBits (d : Double) : Nat :=
  (if d.negative then signBit else 0) + d.magnitude

theorem ofBits_toBits (d : Double) : ofBits d.toBits = d := by
  obtain ⟨negative, magnitude, lt⟩ := d
  cases negative with
  | false => simp [ofBits, toBits, signBit]; omega
  | true => simp [ofBits, toBits, signBit]; omega

end Double

end MetricLang
