import CallWeight.Cost.Record
import CallWeight.Inspection

/-! # Counting calls and keeping the counts

The local cost of a procedure is read off its own body. Costs are kept in three partitions: local
ones from the counting pass, propagated ones after callees have been folded in, and external ones
that were computed on demand for procedures which the counting pass did not cover.
-/

namespace CallWeight

namespace CostRecord

/-- Count the calls of a body. -/
def ofCalls (r : CostRecord) (depths : DepthMap) (calls : List (Site × Statement)) : CostRecord :=
  calls.foldl (fun r (site, s) => if s.isCall then r.countCall (depths.depthAt site) else r) r

/-- One log line per call of a body. -/
def callLines (depths : DepthMap) (calls : List (Site × Statement)) : List Text :=
  calls.filterMap fun (site, s) =>
    s.invokedMethod.map fun method =>
      "  found " ++ method.display ++ s!" at depth {depths.depthAt site}"

/-- Count the calls of a procedure, whose body may be missing. -/
def ofBody (p : Procedure) : Inspecting CostRecord := do
  let empty : CostRecord := { procedure := some p.signature }
  match ← Inspecting.ask (·.body p) with
  | none =>
      Inspecting.record "extract" (.unresolvableBody p.signature)
      Inspecting.debug .counting ("No body for " ++ p.signature ++ "; counted as zero")
      return empty
  | some body =>
      let depths ← Inspecting.depthMap p
      let calls := p.placed body
      (callLines depths calls).forM (Inspecting.debug .counting)
      return empty.ofCalls depths calls

/-- The local cost of a procedure. Library procedures count as zero without a look at their body; if
    an application procedure cannot be looked at, that is recorded and it counts as zero too. -/
def extract (p : Procedure) : Inspecting CostRecord := do
  let empty : CostRecord := { procedure := some p.signature }
  if !(← Inspecting.ask (·.isApplication p)) then return empty
  Inspecting.debug .counting ("Collecting invocations for " ++ p.signature)
  match ← (fun i => let (result, i) := (ofBody p).attempt i; .ok result i) with
  | .ok r => return r
  | .error fault =>
      Inspecting.record "extract" {
        kind := .extractionFailure
        message := "invocations ignored after internal failure"
        procedure := some p.signature
        cause := some fault.toCause }
      Inspecting.warning .counting ("Invocations for " ++ p.signature
        ++ " were ignored, due to internal failure: " ++ fault.message)
      return empty

end CostRecord

/-- Cost records by signature, in three partitions. -/
structure CostStore where
  locals : OrderedMap Text CostRecord := .empty
  propagated : OrderedMap Text CostRecord := .empty
  external : OrderedMap Text CostRecord := .empty
  deriving Repr, Inhabited

namespace CostStore

/-- The best record known: propagated, else local, else external. -/
def best? (store : CostStore) (signature : Text) : Option CostRecord :=
  (store.propagated.get? signature).or
    ((store.locals.get? signature).or (store.external.get? signature))

/-- Replace the best record known. -/
def replaceBest (store : CostStore) (signature : Text) (r : CostRecord) : CostStore :=
  if store.propagated.contains signature then
    { store with propagated := store.propagated.insert signature r }
  else if store.locals.contains signature then
    { store with locals := store.locals.insert signature r }
  else { store with external := store.external.insert signature r }

def putLocal (store : CostStore) (signature : Text) (r : CostRecord) : CostStore :=
  { store with locals := store.locals.insert signature r }

def putExternal (store : CostStore) (signature : Text) (r : CostRecord) : CostStore :=
  { store with external := store.external.insert signature r }

/-- Register a propagated record. -/
def put (store : CostStore) (signature : Text) (r : CostRecord) : CostStore :=
  { store with propagated := store.propagated.insert signature r }

def isPropagated (store : CostStore) (signature : Text) : Bool :=
  store.propagated.contains signature

def contains (store : CostStore) (signature : Text) : Bool := (store.best? signature).isSome

/-- The local records that were never propagated. -/
def unpropagated (store : CostStore) : List (Text × CostRecord) :=
  store.locals.entries.filter fun (signature, _) => !store.isPropagated signature

/-- The number of procedures with a record. -/
def size (store : CostStore) : Nat :=
  (store.locals.keys ++ store.propagated.keys ++ store.external.keys).eraseDups.length

/-- The store in short. -/
def summary (store : CostStore) : String :=
  s!"FeatureStore(local={store.locals.size}, propagated={store.propagated.size}, "
    ++ s!"external={store.external.size})"

end CostStore

/-- A program that is looked at, and the costs known so far. -/
structure Costs where
  inspection : Inspection
  store : CostStore := {}
  deriving Inhabited

/-- A computation that looks at a program and keeps costs. -/
abbrev Costing := EStateM Fault Costs

namespace Costing

/-- Look at the program. -/
def inspect (x : Inspecting α) : Costing α := fun costs =>
  match x costs.inspection with
  | .ok value i => .ok value { costs with inspection := i }
  | .error fault i => .error fault { costs with inspection := i }

def modifyStore (change : CostStore → CostStore) : Costing Unit :=
  modify fun costs => { costs with store := change costs.store }

/-- The best record of a procedure. If there is none, the local cost is computed now and kept as
    external. -/
def cost (p : Procedure) : Costing CostRecord := do
  inspect (Inspecting.ask fun i => i.answer .cost (.text p.signature) (.ok ()))
  match (← get).store.best? p.signature with
  | some r => return r
  | none =>
      let r ← inspect (CostRecord.extract p)
      modifyStore (·.putExternal p.signature r)
      inspect (Inspecting.debug .store ("Created external features for " ++ p.signature))
      return r

/-- The local or external record of a procedure. If there is none, the local cost is computed now
    and kept as local. -/
def localCost (p : Procedure) : Costing CostRecord := do
  let store := (← get).store
  match (store.locals.get? p.signature).or (store.external.get? p.signature) with
  | some r => return r
  | none =>
      let r ← inspect (CostRecord.extract p)
      modifyStore (·.putLocal p.signature r)
      return r

/-- Fold a record into the best record of a procedure, which is there already. -/
def fold (p : Procedure) (callee : CostRecord) (depth : Int) : Costing CostRecord := do
  let weight ← ofExcept (loopWeightOf depth)
  let r := (((← get).store.best? p.signature).getD {}).addWeighted callee weight
  modifyStore (·.replaceBest p.signature r)
  return r

/-- Register the local costs of those procedures that are application code, from a given count
    on. -/
def extractFrom (count : Nat) : List Procedure → Costing Nat
  | [] => return count
  | p :: rest => do
      if ← inspect (Inspecting.ask (·.isApplication p)) then
        let r ← inspect (CostRecord.extract p)
        modifyStore (·.putLocal p.signature r)
        extractFrom (count + 1) rest
      else extractFrom count rest

/-- Register the local costs of the given procedures and say how many were counted. -/
def extractAll (procedures : List Procedure) : Costing Nat := do
  let count ← extractFrom 0 procedures
  inspect (Inspecting.info .counting s!"Counted local invocations for {count} procedures")
  return count

end Costing

end CallWeight
