import CallWeight.Fault

/-! # The order of values

Texts are ordered by their code points and numbers by their size, where a truth value counts as 0
or 1. Other values have no order, so a list of values can be sorted only if it holds nothing but
texts, nothing but numbers, or a single value.
-/

namespace CallWeight.Atom

/-- The size of a number in units of the smallest positive floating point number. -/
def size? : Atom → Option Int
  | .bool value => some (if value then Int.pow 2 1074 else 0)
  | .int value => some (value * Int.pow 2 1074)
  | .real bits => some (Decimal.Binary64.inUnits bits)
  | .text _ | .null => none

/-- Whether one of two values can come before the other. -/
def isComparable (a b : Atom) : Bool :=
  match a, b with
  | .text _, .text _ => true
  | a, b => a.size?.isSome && b.size?.isSome

/-- Whether a value does not come after another one that it can be compared with. -/
def le (a b : Atom) : Bool :=
  match a, b with
  | .text a, .text b => a ≤ b
  | .int a, .int b => a ≤ b
  | a, b => a.size?.getD 0 ≤ b.size?.getD 0

/-- Values can be sorted only if all of them can be compared. -/
def requireOrder : List Atom → Except Fault Unit
  | [] => .ok ()
  | first :: rest => rest.forM fun other =>
      if first.isComparable other then .ok ()
      else .error (.notComparable (Json.atom first).kindName (Json.atom other).kindName)

/-- Sort entries by values that stand for them. -/
def sortBy (key : α → Atom) (entries : List α) : Except Fault (List α) := do
  requireOrder (entries.map key)
  return entries.mergeSort fun a b => (key a).le (key b)

end CallWeight.Atom
