import CallWeight.CallGraph.Basic
import CallWeight.Dispatch.Entries

/-! # Dispatch rules

A rule recognises calls that run code which no declared target names, and says what they run. The
rules are tried in order, and the first one that applies to a call site decides.
-/

namespace CallWeight

inductive DispatchRule where
  /-- A task is submitted: its type's entry method runs. -/
  | submit
  /-- A thread is started: any runnable entry but the caller itself may run. -/
  | start
  /-- A call site without edges runs the method that it names. -/
  | fallback
  deriving Repr, DecidableEq, Inhabited

namespace DispatchRule

def edgeKind : DispatchRule → EdgeKind
  | .submit => .executorSubmit
  | .start => .threadStart
  | .fallback => .staticFallback

def name (rule : DispatchRule) : String := rule.edgeKind.name

/-- The rule in short. -/
def summary : DispatchRule → String
  | .submit => "ExecutorSubmitPattern()"
  | .start => "ThreadStartPattern()"
  | .fallback => "UnresolvedCallFallback()"

def all : List DispatchRule := [.submit, .start, .fallback]

/-- What a rule says about a call site. -/
inductive Verdict where
  /-- The rule does not apply. -/
  | pass
  | targets (procedures : List Procedure)
  /-- The rule applies, but the targets cannot be told. -/
  | unclear (failure : Failure)

/-- What a rule may look at besides the program. -/
structure Context where
  config : Config
  /-- The runnable entries of the program. -/
  entries : List Procedure

/-- The failure of a submission whose task is not understood. -/
def unclearTask (caller : Procedure) (s : Statement) (message : Text) : Verdict :=
  .unclear {
    kind := .classificationFailure
    message
    procedure := some caller.signature
    statement := s.index }

/-- Whether a call is one of the given signatures. -/
def isAmong (signatures : List Text) (method : Json) : Bool :=
  signatures.any fun signature => method.equalsAtom (.text signature)

/-- The entry method of the submitted task's type. -/
def submitted (context : Context) (caller : Procedure) (s : Statement) : Inspecting Verdict := do
  match s.firstArgType with
  | none => return unclearTask caller s "task submission without a typed argument"
  | some type =>
      match ← Inspecting.ask (·.classInfo type) with
      | none => return notConcrete type
      | some c =>
          if c.isInterface then return notConcrete type
          match ← Inspecting.entryPoint c with
          | some p => return .targets [p]
          | none =>
              return unclearTask caller s ("submitted task type " ++ type.display ++ " has no '"
                ++ context.config.entrySubsignature.display ++ "'")
where
  notConcrete (type : Json) : Verdict :=
    unclearTask caller s ("submitted task type " ++ type.display ++ " is not a concrete class")

/-- What a rule says about a call site of a graph. -/
def judge (rule : DispatchRule) (context : Context) (g : CallGraph) (caller : Procedure)
    (site : Site) (s : Statement) : Inspecting Verdict := do
  match s.invokedMethod with
  | none => return .pass
  | some method =>
      match rule with
      | .submit =>
          if isAmong context.config.submitSignatures method then submitted context caller s
          else return .pass
      | .start =>
          if isAmong context.config.threadStartSignatures method then
            return .targets (context.entries.filter (·.signature ≠ caller.signature))
          else return .pass
      | .fallback =>
          if (g.edgesOutOf site).isEmpty then
            return .targets [← Inspecting.procedure method]
          else return .pass

end DispatchRule

end CallWeight
