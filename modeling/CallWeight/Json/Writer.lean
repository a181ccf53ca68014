import CallWeight.Json.Literal

/-! # Writing a document

Values are written in plain ASCII, either on one line or indented by two blanks per level.
-/

namespace CallWeight.Json

open Decimal

def unitEscape (unit : Nat) : List Char := '\\' :: 'u' :: Text.hexPadded 4 unit

/-- A character inside a written text. Characters outside the printable ASCII range become escapes,
    those beyond sixteen bits a pair of them. -/
def escapeChar (c : Char) : List Char :=
  if c = '\x22' || c = '\\' then ['\\', c]
  else if c = '\n' then ['\\', 'n']
  else if c = '\r' then ['\\', 'r']
  else if c = '\t' then ['\\', 't']
  else if c = '\x0c' then ['\\', 'f']
  else if c = '\x08' then ['\\', 'b']
  else if 0x20 ≤ c.toNat && c.toNat < 0x7f then [c]
  else if c.toNat < 0x10000 then unitEscape c.toNat
  else
    let offset := c.toNat - 0x10000
    unitEscape (0xd800 + offset / 0x400) ++ unitEscape (0xdc00 + offset % 0x400)

def escapePoint : CodePoint → List Char
  | .char c => escapeChar c
  | p => unitEscape p.value

def writeText (text : Text) : String :=
  String.ofList ('\x22' :: text.flatMap escapePoint ++ ['\x22'])

def writeAtom : Atom → String
  | .null => "null"
  | .bool true => "true"
  | .bool false => "false"
  | .int value => toString value
  | .real bits =>
      if Binary64.isNaN bits then "NaN"
      else if Binary64.isInfinite bits then
        if Binary64.isNegative bits then "-Infinity" else "Infinity"
      else realFormat.write bits
  | .text value => writeText value

mutual
/-- The value on one line. -/
def write : Json → String
  | .atom value => writeAtom value
  | .arr items => "[" ++ ",".intercalate (writeItems items) ++ "]"
  | .obj fields => "\x7b" ++ ",".intercalate (writeFields fields) ++ "\x7d"
def writeItems : List Json → List String
  | [] => []
  | item :: rest => item.write :: writeItems rest
def writeFields : List (Text × Json) → List String
  | [] => []
  | (key, value) :: rest => (writeText key ++ ":" ++ value.write) :: writeFields rest
end

/-- Lay out parts one per line between two brackets, indented one level deeper than the brackets. -/
def block (opening closing : String) (level : Nat) (parts : List String) : String :=
  if parts.isEmpty then opening ++ closing
  else
    let inner := "\n" ++ "".pushn ' ' (2 * (level + 1))
    opening ++ inner ++ ("," ++ inner).intercalate parts ++ "\n" ++ "".pushn ' ' (2 * level) ++ closing

mutual
/-- The value over several lines, its opening bracket standing at the given level. -/
def writeIndented (level : Nat) : Json → String
  | .atom value => writeAtom value
  | .arr items => block "[" "]" level (writeIndentedItems (level + 1) items)
  | .obj fields => block "\x7b" "\x7d" level (writeIndentedFields (level + 1) fields)
def writeIndentedItems (level : Nat) : List Json → List String
  | [] => []
  | item :: rest => item.writeIndented level :: writeIndentedItems level rest
def writeIndentedFields (level : Nat) : List (Text × Json) → List String
  | [] => []
  | (key, value) :: rest =>
      (writeText key ++ ": " ++ value.writeIndented level) :: writeIndentedFields level rest
end

end CallWeight.Json
