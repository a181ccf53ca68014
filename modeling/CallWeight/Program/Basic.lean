import CallWeight.OrderedMap
import CallWeight.Program.Procedure

/-! # Programs

A program is a table of classes by name and a table of procedures by signature. Procedures that are
asked for but not declared are added to the table as phantoms. Loop depths are computed once per
signature and remembered.
-/

namespace CallWeight

/-- The loop depths of one procedure's statements; statements outside every loop are not listed. -/
structure DepthMap where
  declaringClass : Atom
  subsignature : Atom
  depths : List (Nat × Nat)
  deriving Repr, Inhabited

namespace DepthMap

/-- The depth of a statement. The map knows nothing about statements of other procedures. -/
def depthAt (m : DepthMap) (site : Site) : Nat :=
  if m.declaringClass = site.declaringClass && m.subsignature = site.subsignature then
    (m.depths.lookup site.position).getD 0
  else 0

end DepthMap

def Procedure.depthMap (p : Procedure) : DepthMap :=
  { declaringClass := p.declaringClass, subsignature := p.subsignature, depths := p.loops.depths }

structure Program where
  config : Config := {}
  /-- The classes, filed under the keys of their names. -/
  classes : OrderedMap Atom ClassDecl := .empty
  procedures : OrderedMap Text Procedure := .empty
  /-- Depth maps that were asked for, by signature. -/
  depthCache : OrderedMap Text DepthMap := .empty
  deriving Repr, Inhabited

namespace Program

/-- Add a class and its methods. Methods replace what the table holds under their signatures. -/
def addClass (program : Program) (c : ClassDecl) : Except Fault Program :=
  if program.classes.contains c.name.key then
    .error (.format (.duplicateClass c.name.display))
  else .ok { program with
    classes := program.classes.insert c.name.key c
    procedures := c.methods.foldl (fun table p => table.insert p.signature p) program.procedures }

def ofClasses (config : Config) (classes : List ClassDecl) : Except Fault Program :=
  classes.foldlM addClass { config }

/-- The class of the given name. -/
def class? (program : Program) (name : Atom) : Option ClassDecl := program.classes.get? name.key

/-- Whether a procedure is application code, which its class decides by its name. -/
def isApplication (program : Program) (p : Procedure) : Except Fault Bool := do
  return !program.config.isLibraryClass (← p.className)

/-- Application code can be told from library code only if all classes have texts for names. -/
def requireNames (program : Program) : Except Fault Unit :=
  program.classes.values.forM fun c => do
    let _ ← (Json.atom c.name).asText "rpartition"

def applicationClasses (program : Program) : List ClassDecl :=
  program.classes.values.filter fun c => program.config.isApplicationClass c.name

def applicationProcedures (program : Program) : List Procedure :=
  program.applicationClasses.flatMap (·.methods)

/-- The procedure of a signature. An unknown one becomes a phantom, which the program remembers. -/
def procedure (program : Program) (signature : Text) : Except Fault (Procedure × Program) :=
  match program.procedures.get? signature with
  | some p => .ok (p, program)
  | none => do
      let p ← Procedure.phantom signature
      return (p, { program with procedures := program.procedures.insert signature p })

/-- The loop depths of a procedure. What was computed first for a signature is kept. -/
def depthMap (program : Program) (p : Procedure) : DepthMap × Program :=
  match program.depthCache.get? p.signature with
  | some depths => (depths, program)
  | none =>
      let depths := p.depthMap
      (depths, { program with depthCache := program.depthCache.insert p.signature depths })

/-- The program in short. -/
def summary (program : Program) : String :=
  s!"InMemoryProgram(classes={program.classes.size}, procedures={program.procedures.size})"

end Program

end CallWeight
