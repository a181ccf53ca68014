import CallWeight.Fault
import CallWeight.Text.Split

/-! # Signatures

A procedure is known by the text `<class: subsignature>`. The class ends at the first colon followed
by a blank, so a class name without that pair of characters can always be read back.
-/

namespace CallWeight.Signature

def make (className subsignature : Text) : Text :=
  .char '<' :: className ++ .char ':' :: .char ' ' :: subsignature ++ [.char '>']

/-- The class and the subsignature inside the angle brackets, both nonempty. -/
def splitInside (inside : Text) : Option (Text × Text) :=
  match Text.splitFirst [.char ':', .char ' '] inside with
  | some ([], _) | some (_, []) | none => none
  | some parts => some parts

/-- What stands between a leading `<` and a final `>`. -/
def inside? : Text → Option Text
  | .char '<' :: rest => if rest.getLast? = some (.char '>') then some rest.dropLast else none
  | _ => none

/-- The class name and the subsignature of a signature. -/
def split (signature : Text) : Except Fault (Text × Text) :=
  match (inside? signature).bind splitInside with
  | some parts => .ok parts
  | none => .error (.format (.malformedSignature signature))

/-- The class name and the subsignature of a value that is used as a signature. -/
def splitValue (signature : Json) : Except Fault (Text × Text) := do
  split (← signature.asText "startswith")

/-- The bare name of a method: the last word before the parameter list. -/
def methodName (subsignature : Text) : Text :=
  let head := ((Text.splitFirst [.char '('] subsignature).map (·.1)).getD subsignature
  ((Text.splitLast (.char ' ') head).map (·.2)).getD head

end CallWeight.Signature
