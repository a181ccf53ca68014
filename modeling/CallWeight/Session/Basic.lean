import CallWeight.Cost.Store
import CallWeight.Dispatch.Rule

/-! # Interactive sessions

A session holds one program, one store of costs and one call graph, and works on them command by
command. A command that fails keeps what it did before it failed. What a command names or counts is
a document value, which is checked when its turn comes.
-/

namespace CallWeight

/-- Rules, configuration and visited procedures of an augmentation that can go on later. -/
structure Augmenter where
  config : Config
  rules : List DispatchRule
  visited : List Text := []

structure Session where
  inspection : Inspection
  store : CostStore := {}
  graph : CallGraph := {}
  /-- Signatures resolved by the propagation. -/
  resolved : List Text := []
  augmenter : Option Augmenter := none
  /-- All edges that augmentations of this session have added. -/
  synthetic : List CallEdge := []

/-- What a session is asked to do. A place is a pair of a procedure and a position in its body, where
    negative positions count from the end. -/
inductive Command where
  | addClass (document : Json)
  | setFailures (failures : List QueryFailure)
  | procedure (name : Json)
  | depths (name : Json)
  | entries
  | build
  | addEdge (source place target kind : Json)
  | edgesOutOf (place : Json)
  | edgesOf (name : Json)
  | graph
  | syntheticEdges
  | augment (fresh : Bool) (config : Option Json) (rules : Option (List DispatchRule))
  | judge (place : Json)
  | extract (name : Json)
  /-- Count the given procedures, or all application procedures if none are given. -/
  | extractAll (names : Option Json)
  | cost (name : Json)
  | localCost (name : Json)
  | put (name static approx : Json) (isLocal : Bool)
  | fold (name callee depth : Json)
  | lookup (name : Json)
  | store
  | visit (name : Json)
  | run
  | isResolved (name : Json)
  | costs (name : Json)
  | ranking (top : Json)
  | summary
  /-- Write the reports, with the markers of the configuration if none are given. -/
  | reports (top : Json) (markers : Option Json) (color : Bool)
  | line (name : Json) (heading : Text)
  | issues

/-- The edges around a procedure. -/
structure Neighbourhood where
  leaving : List CallEdge
  arriving : List CallEdge
  isNode : Bool
  isSelfRecursive : Bool

/-- What the store knows about a procedure. -/
structure StoreEntry where
  localCost : Option CostRecord
  propagated : Option CostRecord
  isPropagated : Bool
  isKnown : Bool

/-- What a rule says about a call site, where only faults of the input count as an answer. -/
inductive Judgement where
  | pass
  | targets (signatures : List Text)
  | unclear (failure : Failure)
  | refused (error : FormatError)

inductive Reply where
  | nothing
  | text (value : Text)
  | flag (value : Bool)
  | count (value : Nat)
  | signatures (values : List Text)
  | procedure (p : Procedure) (program : Text)
  | depths (size : Nat) (perStatement : Option (List Nat))
  | edges (values : List CallEdge)
  | newEdge (e : CallEdge)
  | neighbours (around : Neighbourhood)
  | graph (g : CallGraph)
  | judgements (values : List (DispatchRule × Judgement))
  | record (r : CostRecord)
  | cost (r : CostRecord)
  | entry (entry : StoreEntry)
  | store (store : CostStore)
  | propagation (resolved : List Text) (items : List (Text × CostRecord))
  | costs (localCost propagated : Option CostRecord) (best : CostRecord)
  | items (values : List (Text × CostRecord))
  | summary (value : Json)
  | reports (costMap ranking document : Text)
  | issues (values : IssueLog)

/-- A command at work. -/
abbrev SessionM := EStateM Fault Session

namespace SessionM

/-- Look at the program. -/
def inspect (x : Inspecting α) : SessionM α := fun s =>
  match x s.inspection with
  | .ok value i => .ok value { s with inspection := i }
  | .error fault i => .error fault { s with inspection := i }

/-- Look at the program and the costs. -/
def costing (x : Costing α) : SessionM α := fun s =>
  match x { inspection := s.inspection, store := s.store } with
  | .ok value costs => .ok value { s with inspection := costs.inspection, store := costs.store }
  | .error fault costs =>
      .error fault { s with inspection := costs.inspection, store := costs.store }

/-- The procedure that a command names. -/
def lookup (name : Json) : SessionM Procedure := inspect (Inspecting.lookup name)

/-- A position in a list, where negative ones count from the end. -/
def positionOf (position : Int) (length : Nat) : Option Nat :=
  let start := if position < 0 then position + length else position
  if 0 ≤ start && start < length then some start.toNat else none

/-- The statement at a place, with its procedure and its site. -/
def statement (place : Json) : SessionM (Procedure × Site × Statement) := do
  let p ← lookup (← ofExcept (place.itemAt 0))
  let position ← ofExcept (place.itemAt 1)
  match p.body with
  | none => throw (.noBody p.signature)
  | some body =>
      let position ← ofExcept position.asPosition
      match (positionOf position body.length).bind fun n => body[n]?.map (n, ·) with
      | some (n, s) => return (p, p.site n, s)
      | none => throw (.noItem position)

end SessionM

end CallWeight
