import CallWeight.Fault

/-! # Statements

As far as calls are concerned a statement is plain, an invocation, or an assignment whose value may
come from an invocation. An assignment names the invoked method either itself or through its
right-hand side; both spellings are one call.
-/

namespace CallWeight

inductive StatementKind where
  | plain
  | invoke
  | assign
  deriving Repr, DecidableEq, Inhabited

def StatementKind.name : StatementKind → String
  | .plain => "plain"
  | .invoke => "invoke"
  | .assign => "assign"

def StatementKind.all : List StatementKind := [.plain, .invoke, .assign]

/-- The kind of a name. -/
def StatementKind.ofValue (value : Json) : Except Fault StatementKind :=
  match all.find? fun kind => value.equalsAtom (.text kind.name) with
  | some kind => .ok kind
  | none => .error (.noChoice value.literal "StatementKind")

/-- What a statement, or the right-hand side of an assignment, says about a call. -/
structure Operation where
  kind : StatementKind := .plain
  /-- The signature of the invoked method, which may be any value until it is looked up. -/
  method : Option Json := none
  /-- The static types of the arguments. -/
  argTypes : List Json := []
  /-- The methods that the call may dispatch to. Nothing given means the named method; an empty list
      means that no target is known. -/
  targets : Option (List Json) := none
  deriving Repr, Inhabited

structure Statement extends Operation where
  /-- The number under which messages mention the statement. -/
  index : Json := .int 0
  rhs : Option Operation := none
  deriving Repr, Inhabited

namespace Statement

/-- The signature that the statement calls. An assignment reports the call of its right-hand side
    in place of its own. -/
def invokedMethod (s : Statement) : Option Json :=
  match s.kind, s.rhs with
  | .plain, _ => none
  | .invoke, _ => s.method
  | .assign, some rhs => if rhs.kind = .invoke then rhs.method else s.method
  | .assign, none => s.method

def isCall (s : Statement) : Bool := s.invokedMethod.isSome

/-- The type of the first argument, looked for in the right-hand side if the statement itself has no
    arguments. A null is no type. -/
def firstArgType (s : Statement) : Option Json :=
  match (if s.argTypes.isEmpty then (s.rhs.map (·.argTypes)).getD [] else s.argTypes).head? with
  | some .null => none
  | type => type

/-- The targets that the call resolves to by its own declaration. -/
def declaredTargets (s : Statement) : List Json :=
  match s.targets, s.rhs.bind (·.targets) with
  | some targets, _ | none, some targets => targets
  | none, none => s.invokedMethod.toList

/-- How the statement in short mentions its call. -/
def callText (s : Statement) : Except Fault Text :=
  match s.invokedMethod with
  | none => .ok []
  | some (.text method) => .ok (if method.isEmpty then [] else ", " ++ method)
  | some value => if value.truthy then .error (.textExpected value.kindName) else .ok []

/-- The statement in short. -/
def summary (s : Statement) : Except Fault Text := do
  let call ← s.callText
  return "Statement(" ++ s.index.display ++ s!", {s.kind.name}" ++ call ++ ")"

end Statement

end CallWeight
