import CallWeight.CallGraph.Basic
import CallWeight.Inspection

/-! # The call graph of a program

Every statement of every application procedure gets one edge per declared target. A statement
without declared targets stays without edges.
-/

namespace CallWeight.CallGraph

/-- Add the edges of one statement to its declared targets. -/
def addTargets (p : Procedure) (site : Site) (s : Statement) (kind : EdgeKind) (g : CallGraph) :
    List Json → Inspecting CallGraph
  | [] => return g
  | name :: rest => do
      let target ← Inspecting.procedure name
      addTargets p site s kind (g.addEdge { source := p, site, index := s.index, target, kind }) rest

/-- Add the edges of one statement. A single declared target is direct. -/
def addStatement (p : Procedure) (g : CallGraph) (placed : Site × Statement) :
    Inspecting CallGraph :=
  let (site, s) := placed
  let targets := s.declaredTargets
  addTargets p site s (if targets.length = 1 then .direct else .virtual) g targets

/-- Add the edges of one procedure. -/
def addProcedure (g : CallGraph) (p : Procedure) : Inspecting CallGraph := do
  match ← Inspecting.ask (·.body p) with
  | none => return g
  | some body => (p.placed body).foldlM (addStatement p) g

/-- The call graph of the application procedures. -/
def build : Inspecting CallGraph := do
  Inspecting.requireNames
  let g ← (← get).program.applicationProcedures.foldlM addProcedure {}
  Inspecting.info .callGraph
    s!"Built call graph: {g.nodes.size} procedures, {g.edges.length} edges"
  return g

end CallWeight.CallGraph
