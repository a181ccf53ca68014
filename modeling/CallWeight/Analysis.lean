import CallWeight.CallGraph.Build
import CallWeight.CallGraph.Components
import CallWeight.Cost.Propagation
import CallWeight.Dispatch.Augmentation

/-! # A whole analysis

Augment the call graph, count the calls of every application procedure, propagate the counts, and
note which procedures are recursive. The result ranks procedures by their estimated calls.
-/

namespace CallWeight

structure Analysis where
  store : CostStore
  graph : CallGraph
  issues : IssueLog
  /-- The edges added for dispatch. -/
  synthetic : List CallEdge := []
  /-- The recursive components of the graph. -/
  cycles : List (List Text) := []
  deriving Inhabited

/-- The items before an end position. A negative position counts from the end of the list. -/
def takeUntil (stop : Int) (items : List α) : List α :=
  items.take (if stop < 0 then (items.length + stop).toNat else stop.toNat)

namespace Analysis

/-- Hotter procedures come first: more estimated calls, then more call sites, then the smaller
    signature. -/
def hotter (a b : Text × CostRecord) : Bool :=
  if a.2.approx ≠ b.2.approx then a.2.approx > b.2.approx
  else if a.2.static ≠ b.2.static then a.2.static > b.2.static
  else a.1 ≤ b.1

/-- The propagated procedures, hottest first, up to an end position if one is given. -/
def ranking (a : Analysis) (top : Option Int) : List (Text × CostRecord) :=
  let items := a.store.propagated.entries.mergeSort hotter
  match top with
  | some stop => takeUntil stop items
  | none => items

def summary (a : Analysis) : Json :=
  .obj [
    ("propagated", .ofNat a.store.propagated.size),
    ("local", .ofNat a.store.locals.size),
    ("external", .ofNat a.store.external.size),
    ("synthetic_edges", .ofNat a.synthetic.length),
    ("recursive_cycles", .ofNat a.cycles.length),
    ("issues", .obj (a.issues.counts.map fun (kind, n) => (kind.name, .ofNat n)))]

/-- Augment a graph if the configuration asks for it. The added edges come second. -/
def augment (rules : List DispatchRule) (g : CallGraph) :
    Inspecting (CallGraph × List CallEdge) := do
  let i ← get
  if i.program.config.augmentCallGraph.truthy then
    let a := Augmentation.run rules i.program.config { inspection := i, graph := g }
    set a.inspection
    return (a.graph, a.added)
  else return (g, [])

/-- Count and propagate over a graph. -/
def costs (g : CallGraph) : Inspecting CostStore := do
  Inspecting.info .analysis "Counting how many calls each procedure does"
  let i ← get
  match Costing.extractAll i.program.applicationProcedures { inspection := i } with
  | .error fault costs =>
      set costs.inspection
      throw fault
  | .ok _ costs =>
      let costs := (Propagation.run g costs).costs
      set costs.inspection
      return costs.store

/-- Log the warnings about a configuration. -/
def warn (config : Config) : Inspecting Unit := do
  (← ofExcept config.warnings).forM fun warning =>
    Inspecting.warning .analysis s!"AnalysisConfig: {warning}"

/-- Analyse a program over its call graph. -/
def ofGraph (rules : List DispatchRule) (g : CallGraph) : Inspecting Analysis := do
  warn (← get).program.config
  let (g, synthetic) ← augment rules g
  let store ← costs g
  let cycles := g.cycles
  if !cycles.isEmpty then
    Inspecting.info .analysis
      s!"{cycles.length} recursive cycles: their features are under-approximated"
  let issues := (← get).issues
  if !issues.isEmpty then
    Inspecting.info .analysis s!"Recovered from {issues.length} issues: {issues.countsText}"
  return { store, graph := g, issues, synthetic, cycles }

/-- Analyse a program. -/
def ofProgram : Inspecting Analysis := do
  ofGraph DispatchRule.all (← CallGraph.build)

end Analysis

end CallWeight
