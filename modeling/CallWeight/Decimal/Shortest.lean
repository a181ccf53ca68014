import CallWeight.Decimal.Binary64

/-! # The shortest decimal of a floating point number

Among all decimals that read back as a given floating point number there are some with the fewest
digits, and one of those lies nearest to it; of two that are equally near, the one with an even last
digit is taken. It is found on exact fractions: the reals that round to the number form an interval,
and on the grid of decimals with `n` digits only the two grid points around the number can be the
nearest ones in it.
-/

namespace CallWeight.Decimal

/-- The reals that round to a positive number: a fraction `value / unit` and the ends of its
    interval over the same denominator. The ends belong to the interval if `closed`. -/
structure Rounding where
  low : Nat
  value : Nat
  high : Nat
  unit : Nat
  closed : Bool
  deriving Repr

/-- The interval of a finite nonzero number. Below a power of two the neighbours are twice as
    dense, so the lower end is nearer there. -/
def Rounding.ofBinary64 (bits : Binary64) : Rounding :=
  let m := Binary64.mantissa bits
  let below := if m = Nat.pow 2 52 && Binary64.exponentField bits > 1 then 1 else 2
  let power := Binary64.exponent bits - 2
  let scale := if power ≥ 0 then Nat.pow 2 power.toNat else 1
  { low := (4 * m - below) * scale
    value := 4 * m * scale
    high := (4 * m + 2) * scale
    unit := if power ≥ 0 then 1 else Nat.pow 2 (-power).toNat
    closed := m % 2 = 0 }

/-- Express the interval in units of a power of ten. -/
def Rounding.inUnitsOf (r : Rounding) (power : Int) : Rounding :=
  if power ≥ 0 then { r with unit := r.unit * Nat.pow 10 power.toNat }
  else
    let scale := Nat.pow 10 (-power).toNat
    { r with low := r.low * scale, value := r.value * scale, high := r.high * scale }

/-- Whether an integer number of units lies in the interval. -/
def Rounding.holds (r : Rounding) (n : Nat) : Bool :=
  if r.closed then r.low ≤ n * r.unit && n * r.unit ≤ r.high
  else r.low < n * r.unit && n * r.unit < r.high

/-- The integer nearest to the value, if one of its two neighbours lies in the interval. A half goes
    to the even neighbour. -/
def Rounding.nearest? (r : Rounding) : Option Nat :=
  let floor := r.value / r.unit
  match r.holds floor, r.holds (floor + 1) with
  | true, true => some (Binary64.roundDiv r.value r.unit)
  | true, false => some floor
  | false, true => some (floor + 1)
  | false, false => none

/-- How many zeros follow the point before the first digit of a fraction below one. -/
def leadingZeros (num den : Nat) : Nat → Nat
  | 0 => 0
  | fuel + 1 => if num * 10 ≥ den then 0 else leadingZeros (num * 10) den fuel + 1

/-- The power of ten just above the value: its digits start right after that position. -/
def Rounding.magnitude (r : Rounding) : Int :=
  if r.value ≥ r.unit then (Nat.toDigits 10 (r.value / r.unit)).length
  else -(leadingZeros r.value r.unit 400 : Int)

/-- Try decimals with ever more digits; seventeen always suffice. -/
def Rounding.search (r : Rounding) (magnitude : Int) : (digits tries : Nat) → Nat × Int
  | digits, 0 => (r.value / r.unit, digits)
  | digits, tries + 1 =>
      let power := magnitude - digits
      match (r.inUnitsOf power).nearest? with
      | some n => (n, power)
      | none => r.search magnitude (digits + 1) tries

/-- Drop zeros at the end of a digit sequence. -/
def stripZeros (digits : List Char) : List Char :=
  (digits.reverse.dropWhile (· = '0')).reverse

/-- The digits of the shortest decimal, without zeros at the end, and the position of the point:
    `(['1', '5'], 1)` is 1.5. The number is finite and not zero. -/
def shortest (bits : Binary64) : List Char × Int :=
  let r := Rounding.ofBinary64 bits
  let (n, power) := r.search r.magnitude 1 18
  let digits := Nat.toDigits 10 n
  (stripZeros digits, digits.length + power)

end CallWeight.Decimal
