import CallWeight.CallGraph.Basic
import CallWeight.Cost.Store
import CallWeight.Unmet

/-! # Propagating costs through a call graph

Every application procedure is resolved once. To resolve a procedure, its propagated cost starts as
its local cost; then, call by call, a target that is unresolved application code is resolved first,
and the best known cost of the target is folded in with the loop depth of the call. A procedure
counts as resolved as soon as its turn begins, so on a call cycle the procedure that closes the
cycle folds in what its ancestor has gathered so far.

Call chains may be long, so unfinished procedures wait on a stack of frames instead of in nested
calls. The search ends because every new frame resolves another callee of the graph.
-/

namespace CallWeight

/-- A call to fold in, and the target's place among the callees of the graph. -/
structure PendingCall (g : CallGraph) where
  index : Json
  depth : Nat
  target : Procedure
  isCallee : target.signature ∈ g.callees

/-- A procedure in the middle of its resolution. -/
structure Frame (g : CallGraph) where
  procedure : Procedure
  pending : List (PendingCall g)

structure Propagation (g : CallGraph) where
  costs : Costs
  /-- Signatures whose resolution has begun, the last one first. -/
  resolved : List Text := []
  stack : List (Frame g) := []

namespace Propagation

variable {g : CallGraph}

/-- The calls of a statement, one per edge. -/
def callsAt (g : CallGraph) (depths : DepthMap) (placed : Site × Statement) :
    List (PendingCall g) :=
  let (site, s) := placed
  if s.isCall then
    (g.edgesOutOf site).attach.map fun ⟨e, leaves⟩ =>
      { index := s.index
        depth := depths.depthAt site
        target := e.target
        isCallee := CallGraph.signature_mem_callees leaves }
  else []

/-- Begin the resolution of a procedure: register its starting cost and list its calls. A procedure
    without a body is an empty leaf. -/
def begin (g : CallGraph) (p : Procedure) : Costing (List (PendingCall g)) := do
  match ← Costing.inspect (Inspecting.ask (·.body p)) with
  | none =>
      Costing.modifyStore (·.put p.signature { procedure := some p.signature })
      Costing.inspect (Inspecting.debug .propagation
        ("No body for " ++ p.signature ++ "; resolved as an empty leaf"))
      return []
  | some body =>
      let start ← Costing.localCost p
      Costing.modifyStore (·.put p.signature start)
      let depths ← Costing.inspect (Inspecting.depthMap p)
      return (p.placed body).flatMap (callsAt g depths)

/-- Change the inspection behind the costs. -/
def noting (change : Inspection → Inspection) (costs : Costs) : Costs :=
  { costs with inspection := change costs.inspection }

/-- Record that a procedure could not be resolved to its end. -/
def recordFailure (p : Procedure) (fault : Fault) : Costs → Costs :=
  let failure : Failure :=
    { kind := .extractionFailure
      message := "propagation stopped early; keeping partial features"
      procedure := some p.signature
      cause := some fault.toCause }
  noting fun i => (i.record "propagate" failure).warning .propagation
    ("Propagation for " ++ p.signature ++ " stopped early, due to internal failure: "
      ++ fault.message)

/-- Record that a call of a procedure was skipped. -/
def recordSkipped (p : Procedure) (call : PendingCall g) (fault : Fault) : Costs → Costs :=
  let failure : Failure :=
    { kind := .classificationFailure
      message := "call edge skipped during propagation"
      procedure := some p.signature
      statement := call.index
      cause := some fault.toCause }
  noting fun i => (i.record "propagate" failure).debug .propagation
    ("Skipped an edge of " ++ p.signature ++ " at stmt " ++ call.index.display ++ ": "
      ++ fault.message)

/-- The frame of a procedure whose turn begins, unless that fails. -/
def enter (p : Procedure) (costs : Costs) : Costs × List (Frame g) :=
  match begin g p costs with
  | .ok pending costs => (costs, [{ procedure := p, pending }])
  | .error fault costs => (recordFailure p fault costs, [])

/-- Fold the cost of a call's target into a procedure. -/
def foldCall (p : Procedure) (call : PendingCall g) (costs : Costs) : Costs :=
  match Costing.cost call.target costs with
  | .error fault costs => recordSkipped p call fault costs
  | .ok callee costs =>
      let own := (costs.store.propagated.get? p.signature).getD {}
      let message := "Propagated from " ++ call.target.subsignature.display ++ " to "
        ++ p.subsignature.display ++ s!" [call depth = {call.depth}]"
      { inspection := costs.inspection.debug .propagation message
        store := costs.store.put p.signature (own.absorb callee call.depth) }

/-- What is left to do on a stack. -/
def stackWork : List (Frame g) → Nat
  | [] => 0
  | frame :: rest => frame.pending.length + 1 + stackWork rest

/-- Work on the stack until it is empty. -/
def drain (s : Propagation g) : Propagation g :=
  match _stack : s.stack with
  | [] => s
  | { procedure := _, pending := [] } :: rest => drain { s with stack := rest }
  | { procedure := p, pending := call :: pending } :: rest =>
      let target := call.target.signature
      let done (costs : Costs) : Propagation g :=
        { s with costs, stack := { procedure := p, pending } :: rest }
      if target ∈ s.resolved then drain (done (foldCall p call s.costs))
      else
        match s.costs.inspection.isApplication call.target with
        | .error fault => drain (done (recordSkipped p call fault s.costs))
        | .ok false => drain (done (foldCall p call s.costs))
        | .ok true =>
            let (costs, frames) := enter call.target s.costs
            drain {
              costs
              resolved := target :: s.resolved
              stack := frames ++ { procedure := p, pending := call :: pending } :: rest }
termination_by ((unmet g.callees s.resolved).length, stackWork s.stack)
decreasing_by
  · exact Prod.Lex.right _ (by simp [_stack, stackWork])
  · exact Prod.Lex.right _ (by simp [_stack, stackWork])
  · exact Prod.Lex.right _ (by simp [_stack, stackWork])
  · exact Prod.Lex.right _ (by simp [_stack, stackWork])
  · rename_i isNew
    exact Prod.Lex.left _ _ (length_unmet_cons_lt call.isCallee isNew)

/-- Resolve a procedure and everything that it needs. -/
def visit (s : Propagation g) (p : Procedure) : Propagation g :=
  if p.signature ∈ s.resolved then s
  else
    let (costs, frames) := enter p s.costs
    drain { costs, resolved := p.signature :: s.resolved, stack := frames ++ s.stack }

/-- Resolve every application procedure from scratch. -/
def run (g : CallGraph) (costs : Costs) : Propagation g :=
  let costs := noting (·.info .propagation "Propagating invocations through the call graph") costs
  let start : Propagation g := { costs }
  let s := costs.inspection.program.applicationProcedures.foldl visit start
  { s with
    costs := noting (·.info .propagation s!"Resolved {s.resolved.length} procedures") s.costs }

end Propagation

end CallWeight
