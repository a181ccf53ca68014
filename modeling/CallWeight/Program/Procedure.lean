import CallWeight.Config.Basic
import CallWeight.Loop.Basic
import CallWeight.Program.Signature
import CallWeight.Program.Statement

/-! # Procedures and classes

A procedure is identified by its signature, a call site by the class and subsignature of the method
that holds it and by its position there. The two are not the same: a class name may itself contain a
colon and a blank, so that methods of different classes share a signature. Names are usually texts,
but any value that can be a table key is accepted until it is used as a text.
-/

namespace CallWeight

structure Procedure where
  declaringClass : Atom
  subsignature : Atom
  /-- Nothing for phantom, abstract and native procedures. -/
  body : Option (List Statement) := none
  /-- The loops of the body, by statement positions. -/
  loops : LoopNest Nat := {}
  deriving Repr, Inhabited

/-- A statement of the program. -/
structure Site where
  position : Nat
  declaringClass : Atom
  subsignature : Atom
  deriving Repr, DecidableEq, Inhabited

namespace Procedure

def signature (p : Procedure) : Text :=
  Signature.make p.declaringClass.display p.subsignature.display

/-- A procedure without a body that is known by its signature only. -/
def phantom (signature : Text) : Except Fault Procedure := do
  let (declaringClass, subsignature) ← Signature.split signature
  return { declaringClass := .text declaringClass, subsignature := .text subsignature }

def isPhantom (p : Procedure) : Bool := p.body.isNone

/-- The name of the declaring class, which has to be a text. -/
def className (p : Procedure) : Except Fault Text :=
  (Json.atom p.declaringClass).asText "rpartition"

def package (p : Procedure) : Except Fault Text := p.className.map packageOf

/-- The bare method name. -/
def name (p : Procedure) : Except Fault Text :=
  ((Json.atom p.subsignature).asText "partition").map Signature.methodName

def site (p : Procedure) (position : Nat) : Site :=
  { declaringClass := p.declaringClass, subsignature := p.subsignature, position }

/-- The statements of a body, each with its site. -/
def placed (p : Procedure) (body : List Statement) : List (Site × Statement) :=
  body.zipIdx.map fun (statement, position) => (p.site position, statement)

/-- The procedure in short. -/
def summary (p : Procedure) : String := "Procedure(" ++ Text.quote p.signature ++ ")"

end Procedure

structure ClassDecl where
  name : Atom
  /-- The superclass as it was given; values that do not count as true mean that there is none. -/
  superclass : Json := .text "java.lang.Object"
  interfaces : List Json := []
  /-- The value that says whether the class is an interface. -/
  interfaceMark : Json := .bool false
  /-- Declared methods, no two under the same key. -/
  methods : List Procedure := []
  deriving Repr, Inhabited

namespace ClassDecl

def isInterface (c : ClassDecl) : Bool := c.interfaceMark.truthy

/-- Add a method. One under the same key is replaced and keeps its place. -/
def insertMethod (p : Procedure) : List Procedure → List Procedure
  | [] => [p]
  | q :: rest =>
      if q.subsignature.sameKey p.subsignature then p :: rest else q :: insertMethod p rest

/-- Add a method that the class declares. -/
def addMethod (c : ClassDecl) (p : Procedure) : Except Fault ClassDecl :=
  if p.declaringClass.equals c.name then .ok { c with methods := insertMethod p c.methods }
  else .error (.format (.foreignMethod p.signature c.name.display))

/-- A class with the given methods. A class that names itself as its superclass has none. -/
def make (c : ClassDecl) (methods : List Procedure) : Except Fault ClassDecl :=
  let superclass := if c.superclass.equalsAtom c.name then .null else c.superclass
  methods.foldlM addMethod { c with superclass, methods := [] }

def method? (c : ClassDecl) (subsignature : Atom) : Option Procedure :=
  c.methods.find? (·.subsignature.sameKey subsignature)

/-- The class in short. -/
def summary (c : ClassDecl) : String :=
  s!"ClassInfo({c.name.literal}, methods={c.methods.length})"

end ClassDecl

end CallWeight
