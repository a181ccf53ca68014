import CallWeight.Decimal.Binary64
import CallWeight.Text.Basic

/-! # Document values

Program descriptions and configurations are documents of nested values. Several of their slots are
not checked for a kind of value when they are read, so the values themselves live on in the program
and are judged where they are used: some places need a text, some a value that can be looked up,
some a sequence.
-/

namespace CallWeight

open Decimal

/-- A value without parts. Only these can be looked up in a table. -/
inductive Atom where
  | null
  | bool (value : Bool)
  | int (value : Int)
  /-- A floating point number by its bits. -/
  | real (bits : Binary64)
  | text (value : Text)
  deriving Repr, DecidableEq, Hashable, Inhabited

inductive Json where
  | atom (value : Atom)
  | arr (items : List Json)
  /-- Fields in the order of the first appearance of their keys, no key twice. -/
  | obj (fields : List (Text × Json))
  deriving Repr, BEq, Inhabited

namespace Atom

/-- The number that a Boolean or an integer counts as. -/
def asInt? : Atom → Option Int
  | .bool value => some (if value then 1 else 0)
  | .int value => some value
  | _ => none

/-- The value under which a table files another one: Booleans count as the integers 0 and 1, and a
    number that is worth an integer counts as that integer. -/
def key : Atom → Atom
  | .bool value => .int (if value then 1 else 0)
  | .real bits => ((Binary64.toInt? bits).map .int).getD (.real bits)
  | value => value

/-- Equality as table keys. -/
def sameKey (a b : Atom) : Bool := a.key = b.key

def isNaN : Atom → Bool
  | .real bits => Binary64.isNaN bits
  | _ => false

/-- Equality of values. It differs from `sameKey` only in that a NaN does not equal itself. -/
def equals (a b : Atom) : Bool := !a.isNaN && a.sameKey b

/-- Whether a value counts as true. -/
def truthy : Atom → Bool
  | .null => false
  | .bool value => value
  | .int value => value ≠ 0
  | .real bits => !Binary64.isZero bits
  | .text value => !value.isEmpty

end Atom

namespace Json

@[match_pattern]
abbrev null : Json := .atom .null

@[match_pattern]
abbrev bool (value : Bool) : Json := .atom (.bool value)

@[match_pattern]
abbrev int (value : Int) : Json := .atom (.int value)

@[match_pattern]
abbrev text (value : Text) : Json := .atom (.text value)

def ofNat (n : Nat) : Json := .int n

/-- An absent value is written as null. -/
def ofOption (encode : α → Json) : Option α → Json
  | some value => encode value
  | none => .null

/-- The value of a field of an object. -/
def field? (key : Text) : Json → Option Json
  | .obj fields => fields.lookup key
  | _ => none

/-- Whether a value counts as true: an empty sequence or object does not. -/
def truthy : Json → Bool
  | .atom value => value.truthy
  | .arr items => !items.isEmpty
  | .obj fields => !fields.isEmpty

/-- Whether a field is there and counts as true. -/
def hasTruthy (key : Text) (value : Json) : Bool :=
  ((value.field? key).map truthy).getD false

/-- Add a field. A key that is already there keeps its place and gets the new value. -/
def setField (key : Text) (value : Json) : List (Text × Json) → List (Text × Json)
  | [] => [(key, value)]
  | (other, old) :: rest =>
      if other = key then (key, value) :: rest else (other, old) :: setField key value rest

/-- Equality with a value that has no parts. -/
def equalsAtom (a : Json) (b : Atom) : Bool :=
  match a with
  | .atom a => a.equals b
  | _ => false

mutual
/-- Equality of parts of values. The order of fields does not matter. -/
def samePart : Json → Json → Bool
  | .atom a, .atom b => a.sameKey b
  | .arr as, .arr bs => sameItems as bs
  | .obj as, .obj bs => as.length = bs.length && fieldsWithin bs as
  | _, _ => false
def sameItems : List Json → List Json → Bool
  | [], [] => true
  | a :: as, b :: bs => samePart a b && sameItems as bs
  | _, _ => false
/-- Whether all fields of the second list stand in the first one with equal values. -/
def fieldsWithin (others : List (Text × Json)) : List (Text × Json) → Bool
  | [] => true
  | (key, value) :: rest =>
      ((others.lookup key).map (samePart value)).getD false && fieldsWithin others rest
end

/-- Equality of values. -/
def equals (a b : Json) : Bool :=
  match a, b with
  | .atom a, .atom b => a.equals b
  | a, b => samePart a b

end Json

end CallWeight
