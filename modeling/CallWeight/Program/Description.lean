import CallWeight.DocumentFile
import CallWeight.Log
import CallWeight.Loop.Natural
import CallWeight.Program.Basic
import CallWeight.Text.Integer

/-! # Programs from documents

A program description lists classes, their methods, the statements of each body, and the loops of a
body either directly or through the successors of its statements. What is checked is checked in the
order of the document, and the first thing at fault refuses the whole description.
-/

namespace CallWeight.Description

/-- Reading a description may fail; the log lines written before that are kept. -/
abbrev Reading := EStateM Fault Log

def refuse (error : FormatError) : Except Fault α := .error (.format error)

/-- The items of a field that is used as a sequence. A field that is left out has none. -/
def itemsOf (key : Text) (document : Json) : Except Fault (List Json) :=
  match document.field? key with
  | some value => value.items
  | none => .ok []

/-- The signature that a statement invokes. -/
def invokedSignature (document : Json) : Except Fault (Option Json) :=
  match document.field? "invoke" with
  | none | some .null => .ok none
  | some signature => do
      let _ ← Signature.splitValue signature
      return some signature

/-- The dispatch targets of a statement, if they are given. -/
def targetsOf (document : Json) : Except Fault (Option (List Json)) :=
  match document.field? "targets" with
  | none | some .null => .ok none
  | some value => value.items.map some

/-- A statement of the method `site` at the given position. -/
def statement (site : Text) (position : Nat) (document : Json) : Except Fault Statement :=
  match document with
  | .null => .ok { index := .ofNat position }
  | .obj _ => do
      let index := Json.ofNat position
      let method ← invokedSignature document
      let assigns := document.hasTruthy "assign"
      let nested := assigns && document.hasTruthy "nested"
      if nested && method.isNone then refuse (.nestedWithoutInvoke site position)
      let argTypes ← itemsOf "args" document
      let targets ← targetsOf document
      let call (kind : StatementKind) : Operation := { kind, method, argTypes, targets }
      if nested then
        return { kind := .assign, index, rhs := some (call .invoke) }
      else if assigns then return { toOperation := call .assign, index }
      else
        let kind := if method.isSome then .invoke else .plain
        return { toOperation := call kind, index }
  | _ => refuse (.statementNotObject site position)

/-- The statements of a body, from a given position on. -/
def statementsFrom (site : Text) (position : Nat) : List Json → Except Fault (List Statement)
  | [] => .ok []
  | document :: rest => do
      let first ← statement site position document
      let others ← statementsFrom site (position + 1) rest
      return first :: others

/-- A position in a body of the given length. -/
def positionIn (site : Text) (length : Nat) (value : Json) : Except Fault Nat :=
  let number := match value with
    | .atom value => value.asInt?
    | _ => none
  match number with
  | some n => if 0 ≤ n && n < length then .ok n.toNat else refuse (.loopOutsideBody site value)
  | none => refuse (.loopOutsideBody site value)

/-- A loop given by its positions, the header first. -/
def loop (site : Text) (length : Nat) (members : Json) : Except Fault (Loop Nat) := do
  match ← (← members.items).mapM (positionIn site length) with
  | [] => refuse (.emptyLoop site)
  | header :: rest => return .ofMembers header rest

/-- The successors given for one position. -/
def successorsAt (site : Text) (length : Nat) (entry : Text × Json) :
    Except Fault (Nat × List Nat) := do
  let (key, targets) := entry
  match Text.readInteger key with
  | .error _ => refuse (.badSuccessorKey site key)
  | .ok n =>
      let source ← positionIn site length (.int n)
      return (source, ← (← targets.items).mapM (positionIn site length))

/-- The flow of a body. Positions without an entry have no successors. -/
def flow (site : Text) (length : Nat) (successors : List (Text × Json)) :
    Except Fault (Flow Nat) := do
  let table := OrderedMap.ofList (← successors.mapM (successorsAt site length))
  let rows := ((List.range length).map fun position => (table.get? position).getD []).toArray
  return { nodes := List.range length, next := fun position => (rows[position]?).getD [] }

/-- Recover the loops of a flow, and tell how many there are. -/
def recoverLoops (flow : Flow Nat) : Reading (List (Loop Nat)) := do
  let loops := flow.naturalLoops none
  if !flow.nodes.isEmpty then
    modify (·.debug .loops
      s!"Found {loops.length} natural loops in {flow.nodes.length} statements")
  return loops

/-- The loops of a body, given directly or by successors but not both. -/
def loops (site : Text) (length : Nat) (document : Json) : Reading (List (Loop Nat)) := do
  match document.field? "loops", document.field? "successors" with
  | some _, some _ => throw (.format (.loopsAndSuccessors site))
  | _, some (.obj successors) =>
      recoverLoops (← ofExcept (flow site length successors))
  | _, some _ => throw (.format (.successorsNotObject site))
  | some given, none => ofExcept (do (← given.items).mapM (loop site length))
  | none, none => return []

/-- A method before it is known whether its class can hold it. -/
structure Method where
  declaringClass : Json
  subsignature : Json
  body : Option (List Statement) := none
  loops : List (Loop Nat) := []

/-- A method of the class with the given name. -/
def method (className : Json) (document : Json) : Reading Method := do
  match document.field? "subsignature" with
  | none => throw (.format (.methodWithoutSubsignature className.display))
  | some subsignature =>
      let site := Signature.make className.display subsignature.display
      match document.hasTruthy "phantom", document.field? "statements" with
      | true, _ | _, none => return { declaringClass := className, subsignature }
      | false, some statements =>
          let body ← ofExcept (do statementsFrom site 0 (← statements.items))
          let loops ← loops site body.length document
          return { declaringClass := className, subsignature, body := some body, loops }

/-- A class whose name has not been checked yet. -/
structure Class where
  name : Json
  superclass : Json
  interfaces : List Json
  interfaceMark : Json := .bool false
  methods : List (Atom × Method)

/-- A method under its key. It belongs to a class if the name that it gives equals that of the
    class; a NaN names no class, not even its own. -/
def keyed (className : Json) (m : Method) : Except Fault (Atom × Method) := do
  if !m.declaringClass.equals className then
    refuse (.foreignMethod (Signature.make m.declaringClass.display m.subsignature.display)
      className.display)
  return (← m.subsignature.asKey, m)

def classOf (document : Json) : Reading Class := do
  let name := (document.field? "name").getD .null
  if !name.truthy then throw (.format .classWithoutName)
  let methods ← (← ofExcept (itemsOf "methods" document)).mapM (method name)
  let superclass := (document.field? "superclass").getD (.text "java.lang.Object")
  let interfaces ← ofExcept (itemsOf "interfaces" document)
  let methods ← methods.mapM fun m => ofExcept (keyed name m)
  let interfaceMark := Json.bool (document.hasTruthy "interface")
  return { name, superclass, interfaces, interfaceMark, methods }

/-- The procedure of a method that its class holds under a key. -/
def Method.declare (className subsignature : Atom) (m : Method) : Procedure where
  declaringClass := match m.declaringClass with
    | .atom name => name
    | _ => className
  subsignature
  body := m.body
  loops := .ofLoops m.loops

/-- The declaration of a class that is found under a key. -/
def Class.declare (c : Class) (name : Atom) : Except Fault ClassDecl :=
  ClassDecl.make
    { name
      superclass := c.superclass
      interfaces := c.interfaces
      interfaceMark := c.interfaceMark }
    (c.methods.map fun (subsignature, m) => m.declare name subsignature)

/-- Add a class unless one of the same name is there. -/
def addClass (classes : List (Atom × Class)) (c : Class) : Except Fault (List (Atom × Class)) := do
  let key ← c.name.asKey
  if classes.any fun (other, _) => other.sameKey key then refuse (.duplicateClass key.display)
  return classes ++ [(key, c)]

/-- The declarations of classes, whose names may be any keys. -/
def declareAll (classes : List Class) : Except Fault (List ClassDecl) := do
  (← classes.foldlM addClass []).mapM fun (name, c) => c.declare name

/-- A class that is found under a key, once its name is a text and passes the given check. -/
def Class.accept (check : Text → Except Fault Unit) (found : Atom × Class) :
    Except Fault ClassDecl := do
  let (name, c) := found
  check (← (Json.atom name).asText "rpartition")
  c.declare name

/-- The classes of a description. Their names are checked last, one after the other. -/
def classes (check : Text → Except Fault Unit) (documents : List Json) :
    Reading (List ClassDecl) := do
  let found ← documents.foldlM (fun found document => do
    let c ← classOf document
    ofExcept (addClass found c)) []
  found.mapM fun entry => ofExcept (Class.accept check entry)

/-- The program with the classes that a list of documents describes. -/
def programOf (config : Config) (check : Text → Except Fault Unit) (documents : List Json) :
    Reading Program := do
  let program ← ofExcept (Program.ofClasses config (← classes check documents))
  modify (·.info .program (s!"Loaded {program.classes.size} classes "
    ++ s!"({program.applicationProcedures.length} application procedures)"))
  return program

/-- The program that a document describes, if the names of its classes pass a check. -/
def checkedProgram (config : Config) (check : Text → Except Fault Unit) (document : Json) :
    Reading Program := do
  match document with
  | .obj _ =>
      match document.field? "classes" with
      | some (.arr documents) => programOf config check documents
      | _ => throw (.format .noClasses)
  | value => throw (.notObject value.kindName)

/-- The program that a document describes. -/
def program (config : Config) (document : Json) : Reading Program :=
  checkedProgram config (fun _ => .ok ()) document

/-- Why a file gives no program. -/
def fileFault (path : Text) : DocumentFault → Fault
  | .unreadable error => .format (.unreadable path error)
  | .notJson => .format (.notJson path)
  | .notObject => .format (.notObject path)
  | .general fault => fault

/-- The program that a file describes, if the names of its classes pass a check. -/
def checkedProgramOfFile (config : Config) (check : Text → Except Fault Unit) (path : Text)
    (content : FileContent) : Reading Program := do
  match documentOf content with
  | .ok document => checkedProgram config check document
  | .error fault => throw (fileFault path fault)

/-- The program that a file describes. -/
def programOfFile (config : Config) (path : Text) (content : FileContent) : Reading Program :=
  checkedProgramOfFile config (fun _ => .ok ()) path content

end CallWeight.Description
