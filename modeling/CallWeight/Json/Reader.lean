import CallWeight.Json.Basic
import CallWeight.Text.Integer

/-! # Reading a document

A recursive-descent reader over the characters of a text. Besides the usual grammar it accepts the
words `NaN`, `Infinity` and `-Infinity` as numbers; it refuses raw control characters inside texts,
and anything but blanks after the value. A key given twice keeps its first place and its last
value. Brackets inside each other and digits of an integer are limited; what goes beyond a limit is
noticed where the reader meets it, before anything that follows.
-/

namespace CallWeight.Json

/-- Why a text is not read as a document. -/
inductive ReadFault where
  | malformed
  | nestedTooDeeply
  | integerTooLong (digits : Nat)
  deriving Repr, DecidableEq

/-- The most brackets that are read inside each other. -/
def depthLimit : Nat := 988

end CallWeight.Json

namespace CallWeight.Json.Reader

open Decimal

def isSpace (c : Char) : Bool := c = ' ' || c = '\t' || c = '\n' || c = '\r'

def skipSpaces (cs : List Char) : List Char := cs.dropWhile isSpace

def hexDigit? (c : Char) : Option Nat :=
  if '0' ≤ c && c ≤ '9' then some (c.toNat - '0'.toNat)
  else if 'a' ≤ c && c ≤ 'f' then some (c.toNat - 'a'.toNat + 10)
  else if 'A' ≤ c && c ≤ 'F' then some (c.toNat - 'A'.toNat + 10)
  else none

/-- The number written by four hexadecimal digits. -/
def codeUnit? (a b c d : Char) : Option Nat := do
  let a ← hexDigit? a
  let b ← hexDigit? b
  let c ← hexDigit? c
  let d ← hexDigit? d
  return ((a * 16 + b) * 16 + c) * 16 + d

def isHighSurrogate (unit : Nat) : Bool := 0xd800 ≤ unit && unit ≤ 0xdbff

def isLowSurrogate (unit : Nat) : Bool := 0xdc00 ≤ unit && unit ≤ 0xdfff

/-- The character that two surrogates stand for together. -/
def joinSurrogates (high low : Nat) : Char :=
  Char.ofNat (0x10000 + (high - 0xd800) * 0x400 + (low - 0xdc00))

/-- The character after a backslash, if it is one of the one-letter escapes. -/
def shortEscape? (c : Char) : Option Char :=
  if c = '\x22' || c = '\\' || c = '/' then some c
  else if c = 'b' then some '\x08'
  else if c = 'f' then some '\x0c'
  else if c = 'n' then some '\n'
  else if c = 'r' then some '\r'
  else if c = 't' then some '\t'
  else none

/-- The code points read so far, last one first, and a high surrogate that waits for its partner. -/
structure TextSoFar where
  done : List CodePoint := []
  high : Option Nat := none

namespace TextSoFar

/-- A waiting surrogate has found no partner. -/
def settled (t : TextSoFar) : List CodePoint :=
  match t.high with
  | some high => .ofUnit high :: t.done
  | none => t.done

def push (t : TextSoFar) (p : CodePoint) : TextSoFar := { done := p :: t.settled }

def pushUnit (t : TextSoFar) (unit : Nat) : TextSoFar :=
  if isHighSurrogate unit then { done := t.settled, high := some unit }
  else
    match t.high, isLowSurrogate unit with
    | some high, true => { done := .char (joinSurrogates high unit) :: t.done }
    | _, _ => t.push (.ofUnit unit)

end TextSoFar

/-- The rest of a text after its opening quote. -/
def readText (soFar : TextSoFar) : List Char → Option (Text × List Char)
  | [] => none
  | '\x22' :: rest => some (soFar.settled.reverse, rest)
  | '\\' :: 'u' :: a :: b :: c :: d :: rest =>
      match codeUnit? a b c d with
      | some unit => readText (soFar.pushUnit unit) rest
      | none => none
  | '\\' :: c :: rest =>
      match shortEscape? c with
      | some plain => readText (soFar.push (.char plain)) rest
      | none => none
  | c :: rest => if c.toNat < 0x20 || c = '\\' then none else readText (soFar.push (.char c)) rest

/-- The digits at the start of a text and what follows them. -/
def spanDigits (cs : List Char) : List Char × List Char := cs.span Char.isDigit

def digitsToNat (digits : List Char) : Nat :=
  digits.foldl (fun n c => n * 10 + (c.toNat - '0'.toNat)) 0

/-- The digits after a decimal point, if a point and at least one digit follow. -/
def spanFraction (cs : List Char) : Option (List Char × List Char) :=
  match cs with
  | '.' :: rest =>
      match spanDigits rest with
      | ([], _) => none
      | found => some found
  | _ => none

/-- The exponent of a number, if one follows. -/
def spanExponent (cs : List Char) : Option (Int × List Char) :=
  let signed (sign : Int) (rest : List Char) :=
    match spanDigits rest with
    | ([], _) => none
    | (digits, rest) => some (sign * (digitsToNat digits : Int), rest)
  match cs with
  | c :: rest =>
      if c = 'e' || c = 'E' then
        match rest with
        | '-' :: rest => signed (-1) rest
        | '+' :: rest => signed 1 rest
        | rest => signed 1 rest
      else none
  | [] => none

/-- The whole part of a number: a single zero, or digits that start with no zero. -/
def spanWhole (cs : List Char) : Option (List Char × List Char) :=
  match cs with
  | '0' :: rest => some (['0'], rest)
  | cs =>
      match spanDigits cs with
      | ([], _) => none
      | found => some found

/-- An integer by its sign and its digits. -/
def readInteger (negative : Bool) (digits : List Char) : Except ReadFault Json :=
  if digits.length > Text.digitLimit then .error (.integerTooLong digits.length)
  else
    let n : Int := digitsToNat digits
    .ok (.int (if negative then -n else n))

/-- A number after its sign. A fraction or an exponent makes it a floating point number. -/
def readUnsigned (negative : Bool) (cs : List Char) : Except ReadFault (Json × List Char) :=
  match spanWhole cs with
  | none => .error .malformed
  | some (whole, rest) =>
      let (fraction, rest') := (spanFraction rest).getD ([], rest)
      match fraction, spanExponent rest' with
      | [], none => (readInteger negative whole).map (·, rest')
      | fraction, exponent =>
          let (power, rest'') := exponent.getD (0, rest')
          let digits := digitsToNat (whole ++ fraction)
          .ok (.atom (.real (Binary64.ofDecimal negative digits (power - fraction.length))), rest'')

/-- The words that stand for a value. -/
def words : List (List Char × Atom) := [
  ("null".toList, .null),
  ("true".toList, .bool true),
  ("false".toList, .bool false),
  ("NaN".toList, .real Binary64.nan),
  ("Infinity".toList, .real (Binary64.infinity false)),
  ("-Infinity".toList, .real (Binary64.infinity true))]

def readWord (cs : List Char) : Option (Json × List Char) :=
  (words.find? fun (word, _) => word.isPrefixOf cs).map fun (word, value) =>
    (.atom value, cs.drop word.length)

/-- A value without parts that is not a text. -/
def readScalar (cs : List Char) : Except ReadFault (Json × List Char) :=
  match readWord cs with
  | some found => .ok found
  | none =>
      match cs with
      | '-' :: rest => readUnsigned true rest
      | cs => readUnsigned false cs

mutual
/-- A value at the start of the characters. The fuel bounds the nesting and the number of parts;
    `room` is how many brackets may still be opened. -/
def readValue : (fuel room : Nat) → List Char → Except ReadFault (Json × List Char)
  | 0, _, _ => .error .malformed
  | _ + 1, _, '\x22' :: rest =>
      match readText {} rest with
      | some (content, rest) => .ok (.text content, rest)
      | none => .error .malformed
  | _ + 1, 0, '[' :: _ | _ + 1, 0, '\x7b' :: _ => .error .nestedTooDeeply
  | fuel + 1, room + 1, '[' :: rest =>
      match skipSpaces rest with
      | ']' :: rest => .ok (.arr [], rest)
      | rest => readItems fuel room [] rest
  | fuel + 1, room + 1, '\x7b' :: rest =>
      match skipSpaces rest with
      | '\x7d' :: rest => .ok (.obj [], rest)
      | rest => readFields fuel room [] rest
  | _ + 1, _, cs => readScalar cs
/-- The items of a sequence after those in `done`, which is reversed. -/
def readItems : (fuel room : Nat) → List Json → List Char → Except ReadFault (Json × List Char)
  | 0, _, _, _ => .error .malformed
  | fuel + 1, room, done, cs =>
      match readValue fuel room cs with
      | .error fault => .error fault
      | .ok (item, rest) =>
          match skipSpaces rest with
          | ']' :: rest => .ok (.arr (item :: done).reverse, rest)
          | ',' :: rest => readItems fuel room (item :: done) (skipSpaces rest)
          | _ => .error .malformed
/-- The fields of an object after those in `done`. -/
def readFields : (fuel room : Nat) → List (Text × Json) → List Char →
    Except ReadFault (Json × List Char)
  | 0, _, _, _ => .error .malformed
  | fuel + 1, room, done, '\x22' :: cs =>
      match readText {} cs with
      | none => .error .malformed
      | some (key, rest) =>
          match skipSpaces rest with
          | ':' :: rest =>
              match readValue fuel room (skipSpaces rest) with
              | .error fault => .error fault
              | .ok (value, rest) =>
                  let fields := Json.setField key value done
                  match skipSpaces rest with
                  | '\x7d' :: rest => .ok (.obj fields, rest)
                  | ',' :: rest => readFields fuel room fields (skipSpaces rest)
                  | _ => .error .malformed
          | _ => .error .malformed
  | _ + 1, _, _, _ => .error .malformed
end

end CallWeight.Json.Reader

namespace CallWeight.Json

/-- Read a whole text as one value. No character takes more than two steps, so the fuel never runs
    out. -/
def read (text : String) : Except ReadFault Json :=
  let cs := Reader.skipSpaces text.toList
  match Reader.readValue (2 * cs.length + 1) depthLimit cs with
  | .ok (value, rest) => if (Reader.skipSpaces rest).isEmpty then .ok value else .error .malformed
  | .error fault => .error fault

end CallWeight.Json
