import CallWeight.Issue
import CallWeight.Log
import CallWeight.Program.Hierarchy

/-! # Looking at a program

An analysis asks a program about its procedures and classes. Each kind of question can be made to
fail, for one subject or for all, which is how an analysis is tried on a program that cannot answer
everything. An inspection is the program together with the questions that fail, the log written so
far and the issues recorded so far. What an answer changes in it (a new phantom, a remembered depth
map) stays, even if a later question fails.
-/

namespace CallWeight

/-- A kind of question that can fail. -/
inductive Query where
  /-- The body of a procedure. -/
  | body
  /-- Whether a procedure is application code. -/
  | application
  /-- The loop depths of a procedure. -/
  | depths
  /-- The procedure of a signature. -/
  | procedure
  /-- The best known cost of a procedure. -/
  | cost
  /-- Whether a class implements the runnable interface. -/
  | runnable
  /-- Whether a class is a thread class. -/
  | thread
  /-- The entry method of a class. -/
  | entry
  /-- The declaration of a class. -/
  | classInfo
  deriving Repr, DecidableEq

/-- A question that fails for the subject `key`, or for all subjects if the key is `*`. -/
structure QueryFailure where
  query : Query
  key : Atom
  message : Text
  deriving Repr

structure Inspection where
  program : Program
  failures : List QueryFailure := []
  log : Log := #[]
  issues : IssueLog := []
  deriving Inhabited

/-- A computation that looks at a program and may meet a fault. -/
abbrev Inspecting := EStateM Fault Inspection

/-- Run a computation and keep a fault as its result. -/
def Inspecting.attempt (x : Inspecting α) (i : Inspection) : Except Fault α × Inspection :=
  match x i with
  | .ok value i => (.ok value, i)
  | .error fault i => (.error fault, i)

namespace Inspection

def debug (i : Inspection) (channel : LogChannel) (message : Text) : Inspection :=
  { i with log := i.log.debug channel message }

def info (i : Inspection) (channel : LogChannel) (message : Text) : Inspection :=
  { i with log := i.log.info channel message }

def warning (i : Inspection) (channel : LogChannel) (message : Text) : Inspection :=
  { i with log := i.log.warning channel message }

def record (i : Inspection) (phase : Text) (failure : Failure) : Inspection :=
  { i with issues := i.issues.record phase failure }

/-- The last failure set for a subject. -/
def failureFor (i : Inspection) (query : Query) (key : Atom) : Option Fault :=
  (i.failures.filter fun f => f.query = query && f.key.sameKey key).getLast?.map
    fun f => .query f.message

/-- How a question about a subject fails. A failure set for the subject itself comes before one set
    for all subjects. -/
def failure? (i : Inspection) (query : Query) (subject : Atom) : Option Fault :=
  (i.failureFor query subject).or (i.failureFor query (.text "*"))

/-- An answer, unless the question fails. -/
def answer (i : Inspection) (query : Query) (subject : Atom) (value : Except Fault α) :
    Except Fault α :=
  match i.failure? query subject with
  | some fault => .error fault
  | none => value

def body (i : Inspection) (p : Procedure) : Except Fault (Option (List Statement)) :=
  i.answer .body (.text p.signature) (.ok p.body)

def isApplication (i : Inspection) (p : Procedure) : Except Fault Bool :=
  i.answer .application (.text p.signature) (i.program.isApplication p)

def implementsRunnable (i : Inspection) (c : ClassDecl) : Except Fault Bool :=
  i.answer .runnable c.name (i.program.implementsRunnable c)

def isThreadSubclass (i : Inspection) (c : ClassDecl) : Except Fault Bool :=
  i.answer .thread c.name (i.program.isThreadSubclass c)

/-- The declaration of the class that a value names. -/
def classInfo (i : Inspection) (name : Json) : Except Fault (Option ClassDecl) := do
  let key ← name.asKey
  match i.failure? .classInfo key with
  | some fault => throw fault
  | none => return i.program.class? key

end Inspection

namespace Inspecting

def debug (channel : LogChannel) (message : Text) : Inspecting Unit :=
  modify (·.debug channel message)

def info (channel : LogChannel) (message : Text) : Inspecting Unit :=
  modify (·.info channel message)

def warning (channel : LogChannel) (message : Text) : Inspecting Unit :=
  modify (·.warning channel message)

def record (phase : Text) (failure : Failure) : Inspecting Unit :=
  modify (·.record phase failure)

/-- An answer that depends on the inspection but does not change it. -/
def ask (question : Inspection → Except Fault α) : Inspecting α := do
  ofExcept (question (← get))

/-- The procedure of a signature, no matter which questions fail. -/
def declared (signature : Text) : Inspecting Procedure := do
  let i ← get
  let (p, program) ← ofExcept (i.program.procedure signature)
  set { i with program }
  if !i.program.procedures.contains signature then
    debug .program ("Created phantom procedure " ++ signature)
  return p

/-- The procedure that a value names, no matter which questions fail. -/
def lookup (signature : Json) : Inspecting Procedure := do
  let _ ← ofExcept signature.asKey
  declared (← ofExcept (signature.asText "startswith"))

/-- The procedure that a value names. -/
def procedure (signature : Json) : Inspecting Procedure := do
  let key ← ofExcept signature.asKey
  match (← get).failure? .procedure key with
  | some fault => throw fault
  | none => lookup signature

/-- Go on only if application code can be told from library code. -/
def requireNames : Inspecting Unit := ask (·.program.requireNames)

/-- The loop depths of a procedure. -/
def depthMap (p : Procedure) : Inspecting DepthMap := do
  let i ← get
  match i.failure? .depths (.text p.signature) with
  | some fault => throw fault
  | none =>
      let (depths, program) := i.program.depthMap p
      set { i with program }
      return depths

/-- The method that runs when a class is started. -/
def entryPoint (c : ClassDecl) : Inspecting (Option Procedure) := do
  let i ← get
  match ← ofExcept (i.answer .entry c.name (i.program.entrySearch c)) with
  | .found p => return some p
  | .missing => return none
  | .undeclared signature => return some (← procedure (.text signature))

end Inspecting

end CallWeight
