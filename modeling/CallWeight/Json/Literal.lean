import CallWeight.Decimal.Shortest
import CallWeight.Json.Basic
import CallWeight.Text.Quoted

/-! # Values inside messages

How a document value is spelled when a message mentions it: texts are quoted, the constants are
written `None`, `True` and `False`, and a floating point number is its shortest decimal.
-/

namespace CallWeight

open Decimal

/-- How a floating point number is laid out. -/
structure RealFormat where
  /-- Least and greatest position of the point for which no exponent is written. -/
  positionalFrom : Int
  positionalTo : Int
  /-- Least number of digits of an exponent. -/
  exponentWidth : Nat

/-- Numbers from 0.0001 up to 10^16 are written without an exponent, and an exponent has a sign and
    at least two digits. -/
def Json.realFormat : RealFormat where
  positionalFrom := -3
  positionalTo := 16
  exponentWidth := 2

namespace RealFormat

def withExponent (format : RealFormat) (digits : List Char) (point : Int) : List Char :=
  let exponent := point - 1
  let width := Nat.toDigits 10 exponent.natAbs
  let fraction := digits.drop 1
  digits.take 1 ++ (if fraction.isEmpty then [] else '.' :: fraction) ++ ['e']
    ++ [if exponent < 0 then '-' else '+']
    ++ List.replicate (format.exponentWidth - width.length) '0' ++ width

def positional (digits : List Char) (point : Int) : List Char :=
  if point ≤ 0 then '0' :: '.' :: List.replicate (-point).toNat '0' ++ digits
  else
    let whole := point.toNat
    let fraction := digits.drop whole
    digits.take whole ++ List.replicate (whole - digits.length) '0' ++ ['.']
      ++ (if fraction.isEmpty then ['0'] else fraction)

/-- The text of a number: `nan`, `inf`, or its shortest decimal with a point or an exponent. -/
def write (format : RealFormat) (bits : Binary64) : String :=
  let sign := if Binary64.isNegative bits then "-" else ""
  if Binary64.isNaN bits then "nan"
  else if Binary64.isInfinite bits then sign ++ "inf"
  else if Binary64.isZero bits then sign ++ "0.0"
  else
    let (digits, point) := shortest bits
    let inRange := format.positionalFrom ≤ point && point ≤ format.positionalTo
    sign ++ String.ofList (if inRange then positional digits point
      else format.withExponent digits point)

end RealFormat

namespace Atom

/-- The literal of a value without parts. -/
def literal : Atom → String
  | .null => "None"
  | .bool true => "True"
  | .bool false => "False"
  | .int value => toString value
  | .real bits => Json.realFormat.write bits
  | .text value => Text.quote value

/-- The value as running text: a text stands for itself, anything else is its literal. -/
def display : Atom → Text
  | .text value => value
  | value => value.literal

end Atom

namespace Json

mutual
/-- The literal of a value. -/
def literal : Json → String
  | .atom value => value.literal
  | .arr items => "[" ++ ", ".intercalate (literals items) ++ "]"
  | .obj fields => "\x7b" ++ ", ".intercalate (fieldLiterals fields) ++ "\x7d"
def literals : List Json → List String
  | [] => []
  | item :: rest => item.literal :: literals rest
def fieldLiterals : List (Text × Json) → List String
  | [] => []
  | (key, value) :: rest => (Text.quote key ++ ": " ++ value.literal) :: fieldLiterals rest
end

/-- The value as running text: a text stands for itself, anything else is its literal. -/
def display : Json → Text
  | .atom value => value.display
  | value => value.literal

end Json

end CallWeight
