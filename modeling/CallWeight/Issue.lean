import CallWeight.Fault
import CallWeight.Json.Writer

/-! # Issues

A failure that an analysis recovers from is written down as an issue: what kind it is, during which
phase it came up, where, and with which message. The list of issues says exactly what was skipped.
-/

namespace CallWeight

inductive IssueKind where
  /-- A procedure has no body to look at. -/
  | unresolvableBody
  /-- A call site or an edge could not be classified. -/
  | classificationFailure
  /-- Looking at a procedure failed. -/
  | extractionFailure
  /-- The input is malformed. -/
  | input
  deriving Repr, DecidableEq

namespace IssueKind

def name : IssueKind → String
  | .unresolvableBody => "unresolvable-body"
  | .classificationFailure => "classification-failure"
  | .extractionFailure => "extraction-failure"
  | .input => "input"

def all : List IssueKind :=
  [.unresolvableBody, .classificationFailure, .extractionFailure, .input]

end IssueKind

/-- The kind and the message of what caused a failure. -/
structure Cause where
  label : Text
  message : Text
  deriving Repr, DecidableEq

def Fault.toCause (fault : Fault) : Cause := ⟨fault.label, fault.message⟩

/-- A failure with its place in the program. -/
structure Failure where
  kind : IssueKind
  message : Text
  procedure : Option Text := none
  /-- The number of the statement, null if there is none. -/
  statement : Json := .null
  cause : Option Cause := none
  deriving Repr

/-- A place as a message mentions it. -/
def placeText (procedure : Text) (statement : Json) : Text :=
  match statement with
  | .null => procedure
  | index => procedure ++ " @ stmt " ++ index.display

namespace Failure

/-- The procedure has no body to look at. -/
def unresolvableBody (procedure : Text) : Failure where
  kind := .unresolvableBody
  message := "no retrievable body"
  procedure := some procedure

/-- The failure in one line; a place is mentioned only if a procedure is known. -/
def text (failure : Failure) : Text :=
  match failure.procedure with
  | none | some [] => failure.message
  | some procedure => placeText procedure failure.statement ++ ": " ++ failure.message

end Failure

structure Issue where
  kind : IssueKind
  phase : Text
  message : Text
  procedure : Option Text := none
  statement : Json := .null
  deriving Repr

namespace Issue

/-- The record of a failure. The cause moves into the message. -/
def ofFailure (phase : Text) (failure : Failure) : Issue where
  kind := failure.kind
  phase := phase
  message :=
    match failure.cause with
    | some cause => failure.message ++ " (" ++ cause.label ++ ": " ++ cause.message ++ ")"
    | none => failure.message
  procedure := failure.procedure
  statement := failure.statement

/-- The issue in one line. -/
def text (issue : Issue) : Text :=
  let place : Text := match issue.procedure with
    | none | some [] => "<program>"
    | some procedure => procedure
  "[" ++ issue.phase ++ s!"] {issue.kind.name}: " ++ placeText place issue.statement ++ ": "
    ++ issue.message

def toJson (issue : Issue) : Json :=
  .obj [
    ("kind", .text issue.kind.name),
    ("phase", .text issue.phase),
    ("message", .text issue.message),
    ("procedure", Json.ofOption .text issue.procedure),
    ("statement_index", issue.statement)]

end Issue

/-- Issues in the order in which they came up. -/
abbrev IssueLog := List Issue

namespace IssueLog

def record (log : IssueLog) (phase : Text) (failure : Failure) : IssueLog :=
  log ++ [Issue.ofFailure phase failure]

def byKind (log : IssueLog) (kind : IssueKind) : IssueLog :=
  log.filter fun issue => issue.kind = kind

/-- The issues of a procedure, or those of no procedure. -/
def byProcedure (log : IssueLog) (signature : Option Text) : IssueLog :=
  log.filter fun issue => issue.procedure = signature

/-- How many issues there are of each kind, in the order of the first of each. -/
def counts (log : IssueLog) : List (IssueKind × Nat) :=
  (log.map (·.kind)).eraseDups.map fun kind => (kind, (log.byKind kind).length)

/-- The counts as a log line shows them. -/
def countsText (log : IssueLog) : String :=
  (Json.obj (log.counts.map fun (kind, n) => (kind.name, .ofNat n))).literal

def summary (log : IssueLog) : String := s!"IssueLog({log.length} issues)"

end IssueLog

end CallWeight
