import CallWeight.Text.Basic
import CallWeight.Text.Blank
import CallWeight.Text.Digit

/-! # Integers in text

An integer may be surrounded by blanks, carries at most one sign, and is written in the decimal
digits of any script; a single underscore may stand between two digits. Neither reading nor writing
goes beyond a fixed number of digits.
-/

namespace CallWeight.Text

/-- The most digits that an integer may have in a text, zeros at its start included. -/
def digitLimit : Nat := 4300

/-- Why a text is not read as an integer. -/
inductive IntegerFault where
  | malformed
  /-- It has more digits than are read. -/
  | tooLong (digits : Nat)
  deriving Repr, DecidableEq

/-- The value of a decimal digit. -/
def digitAt? (p : CodePoint) : Option Nat := p.char?.bind digitValue?

/-- The digits that a text goes on with, and what stands behind them. Nothing if an underscore does
    not lead to a digit. -/
def digitsAfter : Text → Option (List Nat × Text)
  | [] => some ([], [])
  | .char '_' :: [] => none
  | .char '_' :: p :: rest => do
      let digit ← digitAt? p
      let (digits, rest) ← digitsAfter rest
      return (digit :: digits, rest)
  | p :: rest =>
      match digitAt? p with
      | none => some ([], p :: rest)
      | some digit => (digitsAfter rest).map fun (digits, rest) => (digit :: digits, rest)

/-- The digits that a text starts with, and what stands behind them. Nothing if an underscore does
    not stand between two digits. -/
def leadingDigits : Text → Option (List Nat × Text)
  | .char '_' :: _ => none
  | text => digitsAfter text

/-- The number that decimal digits stand for. -/
def numberOf (digits : List Nat) : Nat := digits.foldl (fun value digit => value * 10 + digit) 0

/-- Whether a code point may stand before or behind a number. -/
def isMargin (p : CodePoint) : Bool := p.char?.any isNumberBlank

/-- A number without a sign. That it has too many digits is found before what stands behind them is
    looked at. -/
def readNatural (text : Text) : Except IntegerFault Nat :=
  match leadingDigits text with
  | none => .error .malformed
  | some (digits, rest) =>
      if digits.length > digitLimit then .error (.tooLong digits.length)
      else if digits.isEmpty || !rest.all isMargin then .error .malformed
      else .ok (numberOf digits)

/-- A number with at most one sign. -/
def readSigned : Text → Except IntegerFault Int
  | .char '-' :: rest => (readNatural rest).map fun n => -(n : Int)
  | .char '+' :: rest => (readNatural rest).map Int.ofNat
  | text => (readNatural text).map Int.ofNat

def readInteger (text : Text) : Except IntegerFault Int := readSigned (text.dropWhile isMargin)

/-- Whether an integer has few enough digits to be written. -/
def isWritable (n : Int) : Bool := n.natAbs < Nat.pow 10 digitLimit

end CallWeight.Text
