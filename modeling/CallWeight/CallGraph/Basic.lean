import CallWeight.OrderedMap
import CallWeight.Program.Procedure

/-! # Call graphs

A call graph connects a calling procedure, through one of its statements, with a called procedure.
Several edges may leave one call site, but no two of them to the same target. Besides the list of
all edges the graph keeps them by call site, by caller and by callee.
-/

namespace CallWeight

inductive EdgeKind where
  /-- The only target of its call site. -/
  | direct
  /-- One of several targets of its call site. -/
  | virtual
  /-- A started thread runs the target. -/
  | threadStart
  /-- A submitted task runs the target. -/
  | executorSubmit
  /-- The method that a call site without edges names. -/
  | staticFallback
  deriving Repr, DecidableEq, Inhabited

namespace EdgeKind

def name : EdgeKind → String
  | .direct => "direct"
  | .virtual => "virtual"
  | .threadStart => "thread-start"
  | .executorSubmit => "executor-submit"
  | .staticFallback => "static-fallback"

def all : List EdgeKind := [.direct, .virtual, .threadStart, .executorSubmit, .staticFallback]

/-- The kind of a name. -/
def ofValue (value : Json) : Except Fault EdgeKind :=
  match all.find? fun kind => value.equalsAtom (.text kind.name) with
  | some kind => .ok kind
  | none => .error (.noChoice value.literal "EdgeKind")

/-- Whether the edge was added for a dispatch that the program does not spell out. -/
def isSynthetic : EdgeKind → Bool
  | .direct | .virtual => false
  | _ => true

end EdgeKind

structure CallEdge where
  source : Procedure
  /-- The statement that calls. -/
  site : Site
  /-- The number of the statement in messages. -/
  index : Json
  target : Procedure
  kind : EdgeKind
  deriving Repr, Inhabited

namespace CallEdge

def isSynthetic (e : CallEdge) : Bool := e.kind.isSynthetic

/-- The edge in short. -/
def summary (e : CallEdge) : Text :=
  "CallEdge(" ++ e.source.signature ++ " -> " ++ e.target.signature
    ++ s!", {e.kind.name} @ stmt " ++ e.index.display ++ ")"

end CallEdge

structure CallGraph where
  /-- Every procedure at an end of an edge, by signature. -/
  nodes : OrderedMap Text Procedure := .empty
  edges : List CallEdge := []
  bySite : OrderedMap Site (List CallEdge) := .empty
  bySource : OrderedMap Text (List CallEdge) := .empty
  byTarget : OrderedMap Text (List CallEdge) := .empty
  deriving Repr, Inhabited

namespace CallGraph

/-- The edges that leave a call site. -/
def edgesOutOf (g : CallGraph) (site : Site) : List CallEdge := (g.bySite.get? site).getD []

/-- The edges whose caller has the given signature. -/
def edgesFrom (g : CallGraph) (signature : Text) : List CallEdge :=
  (g.bySource.get? signature).getD []

/-- The edges whose target has the given signature. -/
def edgesInto (g : CallGraph) (signature : Text) : List CallEdge :=
  (g.byTarget.get? signature).getD []

/-- Put an edge behind those that are filed under a key. -/
def file {α : Type} [DecidableEq α] (index : OrderedMap α (List CallEdge)) (key : α)
    (e : CallEdge) : OrderedMap α (List CallEdge) :=
  index.insert key ((index.get? key).getD [] ++ [e])

/-- Add an edge to every index. -/
def insertEdge (g : CallGraph) (e : CallEdge) : CallGraph :=
  let source := e.source.signature
  let target := e.target.signature
  { nodes := (g.nodes.insertNew source e.source).insertNew target e.target
    edges := g.edges ++ [e]
    bySite := file g.bySite e.site e
    bySource := file g.bySource source e
    byTarget := file g.byTarget target e }

/-- Whether a call site has an edge to a signature. -/
def hasEdge (g : CallGraph) (site : Site) (signature : Text) : Bool :=
  (g.edgesOutOf site).any (·.target.signature = signature)

/-- Add an edge unless its call site has one to the same target. -/
def addEdge (g : CallGraph) (e : CallEdge) : CallGraph :=
  if g.hasEdge e.site e.target.signature then g else g.insertEdge e

def contains (g : CallGraph) (signature : Text) : Bool := g.nodes.contains signature

def syntheticEdges (g : CallGraph) : List CallEdge := g.edges.filter (·.isSynthetic)

/-- The signatures that some call site has an edge to. -/
def callees (g : CallGraph) : List Text :=
  g.bySite.values.flatten.map (·.target.signature)

theorem signature_mem_callees {g : CallGraph} {site : Site} {e : CallEdge}
    (leaves : e ∈ g.edgesOutOf site) : e.target.signature ∈ g.callees := by
  cases found : g.bySite.get? site with
  | none => simp [edgesOutOf, found] at leaves
  | some filed =>
      have inFiled : e ∈ filed := by simpa [edgesOutOf, found] using leaves
      exact List.mem_map.mpr
        ⟨e, List.mem_flatten.mpr ⟨filed, OrderedMap.mem_values_of_get? found, inFiled⟩, rfl⟩

/-- Whether a procedure calls itself directly. -/
def isSelfRecursive (g : CallGraph) (signature : Text) : Bool :=
  (g.edgesFrom signature).any (·.target.signature = signature)

/-- The graph in short. -/
def summary (g : CallGraph) : String :=
  s!"CallGraph(nodes={g.nodes.size}, edges={g.edges.length})"

end CallGraph

end CallWeight
