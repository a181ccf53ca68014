import CallWeight.Cost.Propagation
import CallWeight.Proofs.Computation

/-! # Propagation by plain recursion

The same costs come out of an algorithm that keeps no stack of its own: to resolve a procedure, walk
its statements, and at every edge of a call resolve the target first and fold it in afterwards. What
the frames of `Propagation` hold is what the nested calls of this recursion have left to do, so
working off the frame on top of a stack amounts to finishing one of these calls. What a turn does to
the costs is written out here, so the recursion can be read without the engine.
-/

namespace CallWeight

/-- The costs known at a moment and the signatures whose resolution has begun by then. -/
structure Resolution where
  costs : Costs
  resolved : List Text := []

namespace Resolution

open Propagation

/-- A later moment. What was resolved stays resolved. -/
abbrev After (t : Resolution) : Type := { u : Resolution // t.resolved ⊆ u.resolved }

/-- The moment at which the turn of a procedure begins: it counts as resolved from now on. -/
def mark (t : Resolution) (p : Procedure) : Resolution :=
  { t with resolved := p.signature :: t.resolved }

/-! ## What a turn does to the costs -/

/-- A record that is known, or else the calls of the procedure, which are counted now and kept. -/
def consult (known : Option CostRecord) (p : Procedure) (keep : CostRecord → Costs → Costs)
    (costs : Costs) : EStateM.Result Fault Costs CostRecord :=
  match known with
  | some r => .ok r costs
  | none =>
      match CostRecord.extract p costs.inspection with
      | .error fault i => .error fault { costs with inspection := i }
      | .ok r i => .ok r (keep r { costs with inspection := i })

/-- The cost that a procedure starts from: its local record, else its external one. -/
def seed (p : Procedure) (costs : Costs) : EStateM.Result Fault Costs CostRecord :=
  consult ((costs.store.locals.get? p.signature).or (costs.store.external.get? p.signature)) p
    (fun r costs => { costs with
      store := { costs.store with locals := costs.store.locals.insert p.signature r } }) costs

/-- The cost that a call folds in: the propagated record of its target, else the local one, else the
    external one. -/
def lookUp (target : Procedure) (costs : Costs) : EStateM.Result Fault Costs CostRecord :=
  match costs.inspection.failure? .cost (.text target.signature) with
  | some fault => .error fault costs
  | none =>
      consult ((costs.store.propagated.get? target.signature).or
          ((costs.store.locals.get? target.signature).or
            (costs.store.external.get? target.signature))) target
        (fun r costs =>
          { inspection := costs.inspection.debug .store
              ("Created external features for " ++ target.signature)
            store := { costs.store with
              external := costs.store.external.insert target.signature r } }) costs

/-- Register the cost that a procedure has from now on. -/
def register (p : Procedure) (r : CostRecord) (costs : Costs) : Costs :=
  { costs with
    store := { costs.store with propagated := costs.store.propagated.insert p.signature r } }

/-- A procedure without a body has no cost. -/
def registerEmpty (p : Procedure) (costs : Costs) : Costs :=
  noting (·.debug .propagation ("No body for " ++ p.signature ++ "; resolved as an empty leaf"))
    (register p { procedure := some p.signature } costs)

/-- Report that a procedure could not be resolved to its end. -/
def giveUp (p : Procedure) (fault : Fault) : Costs → Costs :=
  noting fun i => (i.record "propagate" {
      kind := .extractionFailure
      message := "propagation stopped early; keeping partial features"
      procedure := some p.signature
      cause := some fault.toCause }).warning .propagation
    ("Propagation for " ++ p.signature ++ " stopped early, due to internal failure: "
      ++ fault.message)

/-- Report that a call is left out. -/
def skip (p : Procedure) (index : Json) (fault : Fault) : Costs → Costs :=
  noting fun i => (i.record "propagate" {
      kind := .classificationFailure
      message := "call edge skipped during propagation"
      procedure := some p.signature
      statement := index
      cause := some fault.toCause }).debug .propagation
    ("Skipped an edge of " ++ p.signature ++ " at stmt " ++ index.display ++ ": " ++ fault.message)

/-- Add what a call costs to what its caller has gathered. The estimated calls of the target count ten
    times for every loop around the call. -/
def fold (p : Procedure) (index : Json) (depth : Nat) (target : Procedure) (costs : Costs) : Costs :=
  match lookUp target costs with
  | .error fault costs => skip p index fault costs
  | .ok callee costs =>
      let own := (costs.store.propagated.get? p.signature).getD {}
      let sum := { own with
        static := own.static + callee.static
        approx := own.approx + callee.approx * 10 ^ depth }
      noting (·.debug .propagation ("Propagated from " ++ target.subsignature.display ++ " to "
        ++ p.subsignature.display ++ s!" [call depth = {depth}]")) (register p sum costs)

theorem put_eq (p : Procedure) (r : CostRecord) (costs : Costs) :
    { costs with store := costs.store.put p.signature r } = register p r costs := rfl

theorem bind_extract {p : Procedure} {keep : CostRecord → Costs → Costs}
    {f : CostRecord → Costing CostRecord} (keeps : ∀ r costs, f r costs = .ok r (keep r costs))
    (costs : Costs) :
    (Costing.inspect (CostRecord.extract p) >>= f) costs = consult none p keep costs := by
  unfold consult
  cases counted : CostRecord.extract p costs.inspection with
  | error fault i => exact bind_of_error (Costing.inspect_of_error counted)
  | ok r i => exact (bind_of_ok (Costing.inspect_of_ok counted)).trans (keeps _ _)

theorem localCost_eq (p : Procedure) (costs : Costs) : Costing.localCost p costs = seed p costs := by
  have started : (get : Costing Costs) costs = .ok costs costs := rfl
  refine (bind_of_ok started).trans ?_
  unfold seed
  dsimp only
  cases (costs.store.locals.get? p.signature).or (costs.store.external.get? p.signature) with
  | some r => rfl
  | none => exact bind_extract (fun _ _ => rfl) costs

theorem cost_eq (p : Procedure) (costs : Costs) : Costing.cost p costs = lookUp p costs := by
  unfold lookUp
  cases fails : costs.inspection.failure? .cost (.text p.signature) with
  | some fault =>
      have asked : costs.inspection.answer .cost (.text p.signature) (.ok ()) = .error fault := by
        simp only [Inspection.answer, fails]
      exact bind_of_error (Costing.inspect_of_error (Inspecting.ask_of_error asked))
  | none =>
      have asked : costs.inspection.answer .cost (.text p.signature) (.ok ()) = .ok () := by
        simp only [Inspection.answer, fails]
      have started : (get : Costing Costs) costs = .ok costs costs := rfl
      refine (bind_of_ok (Costing.inspect_of_ok (Inspecting.ask_of_ok asked))).trans
        ((bind_of_ok started).trans ?_)
      simp only [CostStore.best?]
      cases (costs.store.propagated.get? p.signature).or
          ((costs.store.locals.get? p.signature).or (costs.store.external.get? p.signature)) with
      | some r => rfl
      | none => exact bind_extract (fun _ _ => rfl) costs

theorem recordSkipped_eq {g : CallGraph} (p : Procedure) (call : PendingCall g) (fault : Fault) :
    recordSkipped p call fault = skip p call.index fault := rfl

theorem foldCall_eq {g : CallGraph} (p : Procedure) (call : PendingCall g) (costs : Costs) :
    foldCall p call costs = fold p call.index call.depth call.target costs := by
  unfold foldCall fold
  rw [cost_eq]
  cases lookUp call.target costs with
  | error fault after => rfl
  | ok callee after => rfl

/-! ## The recursion -/

mutual

/-- Resolve a procedure. If that fails, what it has gathered so far stays. -/
def resolve (g : CallGraph) (p : Procedure) (t : Resolution) : (t.mark p).After :=
  let stop (costs : Costs) : (t.mark p).After := ⟨{ t.mark p with costs }, List.Subset.refl _⟩
  match t.costs.inspection.body p with
  | .error fault => stop (giveUp p fault t.costs)
  | .ok none => stop (registerEmpty p t.costs)
  | .ok (some body) =>
      match seed p t.costs with
      | .error fault costs => stop (giveUp p fault costs)
      | .ok start costs =>
          match Costing.inspect (Inspecting.depthMap p) (register p start costs) with
          | .error fault costs => stop (giveUp p fault costs)
          | .ok depths costs => resolveSites g p depths (p.placed body) { t.mark p with costs }
termination_by ((unmet g.callees (t.mark p).resolved).length, 3, 0)
decreasing_by exact Prod.Lex.right _ (Prod.Lex.left _ _ (by decide))

/-- Fold in the calls of a procedure, statement by statement. -/
def resolveSites (g : CallGraph) (p : Procedure) (depths : DepthMap)
    (sites : List (Site × Statement)) (t : Resolution) : t.After :=
  match sites with
  | [] => ⟨t, List.Subset.refl _⟩
  | (site, s) :: sites =>
      if s.isCall then
        let u := resolveEdges g p s.index (depths.depthAt site) (g.edgesOutOf site)
          (fun _ leaves => CallGraph.signature_mem_callees leaves) t
        let v := resolveSites g p depths sites u
        ⟨v, List.Subset.trans u.2 v.2⟩
      else resolveSites g p depths sites t
termination_by ((unmet g.callees t.resolved).length, 2, sites.length)
decreasing_by
  · exact Prod.Lex.right _ (Prod.Lex.left _ _ (by decide))
  · exact Prod.Lex.right' _ (length_unmet_le u.2 _) (Prod.Lex.right _ (Nat.lt_succ_self _))
  · exact Prod.Lex.right _ (Prod.Lex.right _ (Nat.lt_succ_self _))

/-- Fold in the targets of one statement, edge by edge. -/
def resolveEdges (g : CallGraph) (p : Procedure) (index : Json) (depth : Nat)
    (edges : List CallEdge) (areCallees : ∀ e ∈ edges, e.target.signature ∈ g.callees)
    (t : Resolution) : t.After :=
  match edges with
  | [] => ⟨t, List.Subset.refl _⟩
  | e :: edges =>
      let call : PendingCall g :=
        { index, depth, target := e.target, isCallee := areCallees e List.mem_cons_self }
      let u := resolveCall g p call t
      let v := resolveEdges g p index depth edges
        (fun f others => areCallees f (List.mem_cons_of_mem _ others)) u
      ⟨v, List.Subset.trans u.2 v.2⟩
termination_by ((unmet g.callees t.resolved).length, 1, edges.length)
decreasing_by
  · exact Prod.Lex.right _ (Prod.Lex.left _ _ (by decide))
  · exact Prod.Lex.right' _ (length_unmet_le u.2 _) (Prod.Lex.right _ (Nat.lt_succ_self _))

/-- Fold in the target of a call. If it is unresolved application code, it is resolved before; if
    that cannot be told, the call is skipped. -/
def resolveCall (g : CallGraph) (p : Procedure) (call : PendingCall g) (t : Resolution) : t.After :=
  let fold (u : t.After) : t.After :=
    ⟨{ u.1 with costs := fold p call.index call.depth call.target u.1.costs }, u.2⟩
  if _isNew : call.target.signature ∉ t.resolved then
    match t.costs.inspection.isApplication call.target with
    | .error fault => ⟨{ t with costs := skip p call.index fault t.costs }, List.Subset.refl _⟩
    | .ok true =>
        let u := resolve g call.target t
        fold ⟨u, List.Subset.trans (List.subset_cons_self _ _) u.2⟩
    | .ok false => fold ⟨t, List.Subset.refl _⟩
  else fold ⟨t, List.Subset.refl _⟩
termination_by ((unmet g.callees t.resolved).length, 0, 0)
decreasing_by exact Prod.Lex.left _ _ (length_unmet_cons_lt call.isCallee _isNew)

end

/-- Resolve a procedure unless its resolution has begun before. -/
def visit (g : CallGraph) (t : Resolution) (p : Procedure) : Resolution :=
  if p.signature ∈ t.resolved then t else resolve g p t

/-- Resolve every application procedure from scratch. -/
def run (g : CallGraph) (costs : Costs) : Resolution :=
  let costs := noting (·.info .propagation "Propagating invocations through the call graph") costs
  let t := costs.inspection.program.applicationProcedures.foldl (visit g) { costs }
  { t with
    costs := noting (·.info .propagation s!"Resolved {t.resolved.length} procedures") t.costs }

/-- The moment of the recursion at which a propagation has the given stack. -/
def onStack {g : CallGraph} (t : Resolution) (stack : List (Frame g)) : Propagation g :=
  { costs := t.costs, resolved := t.resolved, stack }

section Frames

variable {g : CallGraph} {p : Procedure} {t : Resolution} {call : PendingCall g}
  {pending : List (PendingCall g)} {rest : List (Frame g)}

theorem drain_nil : drain (t.onStack ([] : List (Frame g))) = t.onStack [] := by
  rw [drain]
  rfl

theorem drain_finished :
    drain (t.onStack ({ procedure := p, pending := [] } :: rest)) = drain (t.onStack rest) := by
  rw [drain]
  rfl

theorem drain_fold (ready : call.target.signature ∈ t.resolved ∨
      t.costs.inspection.isApplication call.target = .ok false) :
    drain (t.onStack ({ procedure := p, pending := call :: pending } :: rest)) =
      drain ({ t with costs := foldCall p call t.costs }.onStack
        ({ procedure := p, pending } :: rest)) := by
  rw [drain]
  simp only [onStack]
  rcases ready with isResolved | isLibrary
  · simp only [isResolved, ↓reduceIte]
  · simp only [isLibrary, ite_self]

theorem drain_skip {fault : Fault} (isNew : call.target.signature ∉ t.resolved)
    (unknown : t.costs.inspection.isApplication call.target = .error fault) :
    drain (t.onStack ({ procedure := p, pending := call :: pending } :: rest)) =
      drain ({ t with costs := recordSkipped p call fault t.costs }.onStack
        ({ procedure := p, pending } :: rest)) := by
  rw [drain]
  simp only [onStack, isNew, unknown, ↓reduceIte]

theorem drain_enter (isNew : call.target.signature ∉ t.resolved)
    (isApplication : t.costs.inspection.isApplication call.target = .ok true) :
    drain (t.onStack ({ procedure := p, pending := call :: pending } :: rest)) =
      drain { costs := (enter (g := g) call.target t.costs).1
              resolved := call.target.signature :: t.resolved
              stack := (enter call.target t.costs).2 ++
                { procedure := p, pending := call :: pending } :: rest } := by
  rw [drain]
  simp only [onStack, isNew, isApplication, ↓reduceIte]

end Frames

/-- Working off the frames of a procedure whose turn begins amounts to resolving it, as long as fewer
    than `n` callees are unmet from then on. -/
def Simulates (g : CallGraph) (n : Nat) : Prop :=
  ∀ (p : Procedure) (t : Resolution) (rest : List (Frame g)),
    (unmet g.callees (t.mark p).resolved).length < n →
      drain ({ t.mark p with costs := (enter (g := g) p t.costs).1 }.onStack
        ((enter p t.costs).2 ++ rest)) = drain ((resolve g p t).1.onStack rest)

/-- The calls through some edges of one statement. -/
def callsThrough {g : CallGraph} (index : Json) (depth : Nat) (edges : List CallEdge)
    (areCallees : ∀ e ∈ edges, e.target.signature ∈ g.callees) : List (PendingCall g) :=
  edges.pmap (fun e isCallee => { index, depth, target := e.target, isCallee }) areCallees

section Simulation

variable {g : CallGraph} {n : Nat} (simulates : Simulates g n) (p : Procedure) {t : Resolution}
  (few : (unmet g.callees t.resolved).length ≤ n) (pending : List (PendingCall g))
  (rest : List (Frame g))

include simulates few

theorem drain_call (call : PendingCall g) :
    drain (t.onStack ({ procedure := p, pending := call :: pending } :: rest)) =
      drain ((resolveCall g p call t).1.onStack ({ procedure := p, pending } :: rest)) := by
  rw [resolveCall]
  simp only [← foldCall_eq, ← recordSkipped_eq]
  by_cases isResolved : call.target.signature ∈ t.resolved
  · simp only [isResolved, not_true_eq_false, ↓reduceDIte]
    exact drain_fold (.inl isResolved)
  · simp only [isResolved, not_false_eq_true, ↓reduceDIte]
    split
    · rename_i fault unknown
      exact drain_skip isResolved unknown
    · rename_i isApplication
      have resolved := (resolve g call.target t).2 List.mem_cons_self
      have fewer := length_unmet_cons_lt call.isCallee isResolved
      have simulated := simulates call.target t
        ({ procedure := p, pending := call :: pending } :: rest) (Nat.lt_of_lt_of_le fewer few)
      rw [drain_enter isResolved isApplication]
      exact simulated.trans (drain_fold (.inl resolved))
    · rename_i isLibrary
      exact drain_fold (.inr isLibrary)

theorem drain_edges (index : Json) (depth : Nat) (edges : List CallEdge)
    (areCallees : ∀ e ∈ edges, e.target.signature ∈ g.callees) :
    drain (t.onStack ({
      procedure := p, pending := callsThrough index depth edges areCallees ++ pending } :: rest)) =
    drain ((resolveEdges g p index depth edges areCallees t).1.onStack
      ({ procedure := p, pending } :: rest)) := by
  induction edges generalizing t with
  | nil =>
      rw [resolveEdges]
      rfl
  | cons e edges ih =>
      rw [resolveEdges]
      simp only [callsThrough, List.pmap_cons, List.cons_append]
      rw [drain_call simulates p few]
      exact ih (Nat.le_trans (length_unmet_le (resolveCall g p _ t).2 _) few) _

theorem drain_sites (depths : DepthMap) (sites : List (Site × Statement)) :
    drain (t.onStack ({ procedure := p, pending := sites.flatMap (callsAt g depths) } :: rest)) =
      drain ((resolveSites g p depths sites t).1.onStack rest) := by
  induction sites generalizing t with
  | nil =>
      rw [resolveSites]
      exact drain_finished
  | cons placed sites ih =>
      obtain ⟨site, s⟩ := placed
      rw [resolveSites]
      by_cases isCall : s.isCall
      · have calls : callsAt g depths (site, s) = callsThrough s.index (depths.depthAt site)
            (g.edgesOutOf site) fun _ leaves => CallGraph.signature_mem_callees leaves := by
          simp only [callsAt, callsThrough, isCall, ↓reduceIte, List.pmap_eq_map_attach]
        simp only [isCall, ↓reduceIte, List.flatMap_cons]
        rw [calls, drain_edges simulates p few]
        exact ih (Nat.le_trans (length_unmet_le (resolveEdges g p _ _ _ _ t).2 _) few)
      · simp only [isCall, ↓reduceIte, List.flatMap_cons, callsAt, List.nil_append, Bool.false_eq_true]
        exact ih few

end Simulation

theorem simulates (g : CallGraph) (n : Nat) : Simulates g n := by
  -- Every nested resolution marks another callee, so fewer are unmet than around it.
  induction n with
  | zero => exact fun _ _ _ few => absurd few (Nat.not_lt_zero _)
  | succ n ih =>
      intro p t rest few
      have few : (unmet g.callees (t.mark p).resolved).length ≤ n := Nat.le_of_lt_succ few
      rw [resolve]
      simp only [enter, begin_eq, localCost_eq, put_eq]
      cases found : t.costs.inspection.body p with
      | error fault => rfl
      | ok body =>
          cases body with
          | none => exact drain_finished
          | some body =>
              simp only
              cases seeded : seed p t.costs with
              | error fault costs => rfl
              | ok start costs =>
                  simp only
                  cases looked : Costing.inspect (Inspecting.depthMap p) (register p start costs) with
                  | error fault costs => rfl
                  | ok depths costs =>
                      exact drain_sites (t := { t.mark p with costs }) ih p few rest depths _

theorem visit_onStack (g : CallGraph) (t : Resolution) (p : Procedure) :
    Propagation.visit (g := g) (t.onStack []) p = (t.visit g p).onStack [] := by
  unfold Propagation.visit Resolution.visit
  by_cases isResolved : p.signature ∈ t.resolved
  · simp only [onStack, isResolved, ↓reduceIte]
  · simp only [onStack, isResolved, ↓reduceIte]
    exact (simulates g _ p t [] (Nat.lt_succ_self _)).trans drain_nil

theorem foldl_visit_onStack (g : CallGraph) (roots : List Procedure) (t : Resolution) :
    roots.foldl Propagation.visit (t.onStack (g := g) []) =
      (roots.foldl (Resolution.visit g) t).onStack [] := by
  induction roots generalizing t with
  | nil => rfl
  | cons root roots ih =>
      simp only [List.foldl_cons, visit_onStack]
      exact ih _

theorem run_eq (g : CallGraph) (costs : Costs) :
    Propagation.run g costs = (Resolution.run g costs).onStack [] := by
  let started :=
    noting (·.info .propagation "Propagating invocations through the call graph") costs
  have visited := foldl_visit_onStack g started.inspection.program.applicationProcedures
    { costs := started }
  have starts : ({ costs := started } : Propagation g) = onStack { costs := started } [] := rfl
  simp only [Propagation.run, Resolution.run]
  rw [starts, visited]
  rfl

/-- Resolving with an explicit stack of frames leaves the same store, log and issues behind as the
    plain recursion, and has resolved the same procedures in the same order. Nothing is assumed about
    the graph, the program, the store or the questions that fail. -/
theorem run_refines_plain_recursion (g : CallGraph) (costs : Costs) :
    (Propagation.run g costs).costs = (Resolution.run g costs).costs ∧
      (Propagation.run g costs).resolved = (Resolution.run g costs).resolved ∧
      (Propagation.run g costs).stack = [] := by
  rw [run_eq]
  exact ⟨rfl, rfl, rfl⟩

end Resolution

end CallWeight
