import CallWeight.Text.Basic
import CallWeight.Text.Printable

/-! # Quoted text

A text inside a message is quoted so that its ends and its invisible characters show. The quote
mark is the apostrophe unless the text holds apostrophes and no double quotes. Surrogates are written
as escapes, so a quoted text is always a string.
-/

namespace CallWeight.Text

/-- Hexadecimal digits, filled up with zeros on the left. -/
def hexPadded (width n : Nat) : List Char :=
  let digits := Nat.toDigits 16 n
  List.replicate (width - digits.length) '0' ++ digits

def apostrophe : Char := '\x27'

def doubleQuote : Char := '\x22'

/-- A character as it stands between the given quote marks. -/
def quoteChar (mark c : Char) : List Char :=
  if c = mark || c = '\\' then ['\\', c]
  else if c = '\n' then ['\\', 'n']
  else if c = '\r' then ['\\', 'r']
  else if c = '\t' then ['\\', 't']
  else if isPrintable c then [c]
  else if c.toNat < 0x100 then '\\' :: 'x' :: hexPadded 2 c.toNat
  else if c.toNat < 0x10000 then '\\' :: 'u' :: hexPadded 4 c.toNat
  else '\\' :: 'U' :: hexPadded 8 c.toNat

/-- A code point as it stands between the given quote marks. -/
def quotePoint (mark : Char) : CodePoint → List Char
  | .char c => quoteChar mark c
  | p => '\\' :: 'u' :: hexPadded 4 p.value

/-- The quote mark that needs the least escaping. -/
def quoteMark (text : Text) : Char :=
  if text.contains (.char apostrophe) && !text.contains (.char doubleQuote) then doubleQuote
  else apostrophe

def quote (text : Text) : String :=
  let mark := quoteMark text
  String.ofList (mark :: text.flatMap (quotePoint mark) ++ [mark])

/-- The most characters of a quoted text that a message about a number shows. -/
def excerptLength : Nat := 200

/-- The start of a quoted text. One that is too long loses its closing mark. -/
def excerpt (text : Text) : Text := (ofString (quote text)).take excerptLength

end CallWeight.Text
