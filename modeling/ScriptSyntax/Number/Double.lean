/-!
Double precision numbers as 64-bit words. The word without its sign counts the finite magnitudes in
ascending order, and every magnitude is a whole number of units of 2 ^ -1074.
-/

namespace ScriptSyntax

structure Double where
  bits : UInt64
  deriving DecidableEq, Inhabited

namespace Double

/-- The value of the sign bit. -/
def signBit : Nat := Nat.pow 2 63

/-- The value of the lowest bit of the exponent, and of the leading digit it stands for. -/
def leading : Nat := Nat.pow 2 52

/-- How many units make one. -/
def unitsOfOne : Nat := Nat.pow 2 1074

/-- The magnitude of infinity. What lies above it is no number. -/
def infinity : Nat := 2047 * leading

def magnitude (x : Double) : Nat := x.bits.toNat % signBit

def isNegative (x : Double) : Bool := signBit ≤ x.bits.toNat

def isFinite (x : Double) : Bool := x.magnitude < infinity

def isNaN (x : Double) : Bool := infinity < x.magnitude

def ofMagnitude (magnitude : Nat) : Double := ⟨UInt64.ofNat magnitude⟩

/-- The absolute value in units of 2 ^ -1074. -/
def units (x : Double) : Nat :=
  if x.magnitude < leading then x.magnitude
  else (leading + x.magnitude % leading) * Nat.pow 2 (x.magnitude / leading - 1)

/-- The whole number nearest to a quotient, the even one of two. -/
def roundHalfEven (numerator denominator : Nat) : Nat :=
  let quotient := numerator / denominator
  let remainder := numerator % denominator
  if 2 * remainder < denominator then quotient
  else if denominator < 2 * remainder then quotient + 1
  else quotient + quotient % 2

/-- The double nearest to a quotient: 53 binary digits are kept, or fewer if the unit is reached.
Rounding up to the next power of two carries into the exponent by itself. -/
def ofRatio (numerator denominator : Nat) : Double :=
  let scaled := numerator * unitsOfOne
  let shift := (scaled / denominator).log2 - 52
  let rounded := roundHalfEven scaled (denominator * Nat.pow 2 shift)
  ofMagnitude (min infinity (shift * leading + rounded))

end Double

/-- The number `digits * 10 ^ exponent`. -/
structure Decimal where
  digits : Nat
  exponent : Int
  deriving DecidableEq, Inhabited

/-- The double nearest to a decimal number. -/
def Double.ofDecimal (d : Decimal) : Double :=
  .ofRatio (d.digits * Nat.pow 10 d.exponent.toNat) (Nat.pow 10 (-d.exponent).toNat)

end ScriptSyntax
