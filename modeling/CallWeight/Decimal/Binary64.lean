/-! # Binary floating point by its bits

A 64-bit floating point number is a sign, an 11-bit exponent field and a 52-bit fraction field.
A finite one is worth `mantissa * 2 ^ exponent`, and everything here is exact arithmetic on that
pair.
-/

namespace CallWeight.Decimal

/-- A floating point number by its 64 bits. -/
abbrev Binary64 := UInt64

namespace Binary64

def isNegative (bits : Binary64) : Bool := bits.toNat ≥ Nat.pow 2 63

def exponentField (bits : Binary64) : Nat := bits.toNat / Nat.pow 2 52 % Nat.pow 2 11

def fractionField (bits : Binary64) : Nat := bits.toNat % Nat.pow 2 52

def isNaN (bits : Binary64) : Bool := exponentField bits = 2047 && fractionField bits ≠ 0

def isInfinite (bits : Binary64) : Bool := exponentField bits = 2047 && fractionField bits = 0

/-- The integer factor of a finite number's absolute value. -/
def mantissa (bits : Binary64) : Nat :=
  if exponentField bits = 0 then fractionField bits else Nat.pow 2 52 + fractionField bits

/-- The power of two that multiplies the mantissa of a finite number. -/
def exponent (bits : Binary64) : Int :=
  if exponentField bits = 0 then -1074 else (exponentField bits : Int) - 1075

def nan : Binary64 := UInt64.ofNat (2047 * Nat.pow 2 52 + Nat.pow 2 51)

def signBit (negative : Bool) : Nat := if negative then Nat.pow 2 63 else 0

def infinity (negative : Bool) : Binary64 :=
  UInt64.ofNat (signBit negative + 2047 * Nat.pow 2 52)

/-- The mantissa with the sign of the number. -/
def signedMantissa (bits : Binary64) : Int :=
  if isNegative bits then -(mantissa bits : Int) else mantissa bits

/-- The value of a finite number in units of the smallest positive one, `2 ^ (-1074)`. -/
def inUnits (bits : Binary64) : Int :=
  signedMantissa bits * Int.pow 2 (exponent bits + 1074).toNat

/-- The integer part of a finite number. -/
def truncated (bits : Binary64) : Int :=
  if exponent bits ≥ 0 then signedMantissa bits * Int.pow 2 (exponent bits).toNat
  else (signedMantissa bits).tdiv (Int.pow 2 (-exponent bits).toNat)

/-- Whether a number is an integer. -/
def isIntegral (bits : Binary64) : Bool :=
  exponentField bits ≠ 2047
    && (exponent bits ≥ 0 || signedMantissa bits % Int.pow 2 (-exponent bits).toNat = 0)

/-- The integer that a number is worth, if it is worth one. -/
def toInt? (bits : Binary64) : Option Int :=
  if isIntegral bits then some (truncated bits) else none

/-- Whether the number is a zero of either sign. -/
def isZero (bits : Binary64) : Bool := bits.toNat % Nat.pow 2 63 = 0

/-- A quotient rounded to the nearest integer, a half to the even neighbour. -/
def roundDiv (num den : Nat) : Nat :=
  let floor := num / den
  let rest := num % den
  if 2 * rest < den then floor
  else if 2 * rest > den then floor + 1
  else if floor % 2 = 0 then floor else floor + 1

/-- Divide by a power of two, rounding to nearest. -/
def scaled (num den : Nat) (power : Int) : Nat :=
  if power ≥ 0 then roundDiv num (den * Nat.pow 2 power.toNat)
  else roundDiv (num * Nat.pow 2 (-power).toNat) den

/-- The number nearest to the positive quotient `num / den`. -/
def ofQuotient (negative : Bool) (num den : Nat) : Binary64 :=
  let guess : Int := (num.log2 : Int) - den.log2 - 52
  -- the quotient lies within a factor of two of `2 ^ (guess + 52)`
  let fits := if guess ≥ 0 then num ≥ den * Nat.pow 2 52 * Nat.pow 2 guess.toNat
    else num * Nat.pow 2 (-guess).toNat ≥ den * Nat.pow 2 52
  let power := max (if fits then guess else guess - 1) (-1074)
  let digits := scaled num den power
  let (digits, power) :=
    if digits = Nat.pow 2 53 then (Nat.pow 2 52, power + 1) else (digits, power)
  if power + 1075 ≥ 2047 then infinity negative
  else if digits < Nat.pow 2 52 then UInt64.ofNat (signBit negative + digits)
  else
    UInt64.ofNat (signBit negative + (power + 1075).toNat * Nat.pow 2 52 + (digits - Nat.pow 2 52))

/-- The number nearest to `digits * 10 ^ power`. Magnitudes far outside the range are decided by
    the position of the leading digit alone. -/
def ofDecimal (negative : Bool) (digits : Nat) (power : Int) : Binary64 :=
  let leading : Int := (Nat.toDigits 10 digits).length + power
  if digits = 0 || leading < -400 then UInt64.ofNat (signBit negative)
  else if leading > 400 then infinity negative
  else if power ≥ 0 then ofQuotient negative (digits * Nat.pow 10 power.toNat) 1
  else ofQuotient negative digits (Nat.pow 10 (-power).toNat)

end Binary64

end CallWeight.Decimal
