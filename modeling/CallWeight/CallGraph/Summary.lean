import CallWeight.CallGraph.Components
import CallWeight.Json.Basic

/-! # Call graph figures -/

namespace CallWeight.CallGraph

structure Statistics where
  procedures : Nat
  edges : Nat
  callSites : Nat
  polymorphicCallSites : Nat
  syntheticEdges : Nat
  /-- The number of edges of each kind. -/
  byKind : List (EdgeKind × Nat)
  recursiveCycles : Nat
  deriving Repr

def statistics (g : CallGraph) : Statistics :=
  let byKind := EdgeKind.all.map fun kind => (kind, (g.edges.filter (·.kind = kind)).length)
  { procedures := g.nodes.size
    edges := g.edges.length
    callSites := g.bySite.size
    polymorphicCallSites := (g.bySite.values.filter (·.length > 1)).length
    syntheticEdges := (byKind.filter (·.1.isSynthetic)).foldl (fun total (_, n) => total + n) 0
    byKind
    recursiveCycles := g.cycles.length }

/-- The figures under their names. -/
def Statistics.fields (s : Statistics) : List (String × Nat) :=
  [("procedures", s.procedures),
    ("edges", s.edges),
    ("call_sites", s.callSites),
    ("polymorphic_call_sites", s.polymorphicCallSites),
    ("synthetic_edges", s.syntheticEdges)]
  ++ s.byKind.map (fun (kind, n) => (kind.name ++ "_edges", n))
  ++ [("recursive_cycles", s.recursiveCycles)]

def Statistics.toJson (s : Statistics) : Json :=
  .obj (s.fields.map fun (name, n) => (name, .ofNat n))

/-- The figures, one per line. -/
def Statistics.lines (s : Statistics) : List String := [
  s!"  Procedures:             {s.procedures}",
  s!"  Edges:                  {s.edges}",
  s!"  Call sites:             {s.callSites}",
  s!"  Polymorphic call sites: {s.polymorphicCallSites}",
  s!"  Synthetic edges:        {s.syntheticEdges}",
  s!"  Recursive cycles:       {s.recursiveCycles}"]

/-- The figures and the synthetic edges, one per line. -/
def report (g : CallGraph) : Text :=
  let figures := "Call Graph Summary" :: g.statistics.lines ++ ["", "Synthetic edges:"]
  Text.join "\n" (figures.map Text.ofString ++ g.syntheticEdges.map edgeLine)
where
  edgeLine (e : CallEdge) : Text :=
    "  " ++ e.source.signature ++ " -> " ++ e.target.signature ++ s!" [{e.kind.name}]"

end CallWeight.CallGraph
