import CallWeight.Proofs.ViewedAugmentation
import CallWeight.Proofs.PlainRecursion

/-! # Analysing a program seen through a view

An analysis asks for the body and the loops of a procedure only after it has found out that the
procedure is application code. So each of its phases does the same on a program and on the program seen
through a view. Two programs that look the same through a view therefore lead to analyses that look the
same through it.
-/

namespace CallWeight

variable {config : Config} (view : View config)

/-! ## Costs -/

section Costs

open Inspecting

variable {view}

theorem CostRecord.ofCalls_through (r : CostRecord) (depths : DepthMap)
    (calls : List (Site × Statement)) :
    r.ofCalls depths (calls.map view.placed) = r.ofCalls depths calls := by
  simp only [ofCalls, List.foldl_map, View.placed, view.isCall]

theorem CostRecord.callLines_through (depths : DepthMap) (calls : List (Site × Statement)) :
    callLines depths (calls.map view.placed) = callLines depths calls := by
  simp only [callLines, List.filterMap_map, Function.comp_def, View.placed, view.invokedMethod]

theorem CostRecord.mirrored_ofBody {p : Procedure}
    (accepted : config.isApplicationClass p.declaringClass = true) :
    Mirrored view id (ofBody p) (ofBody (p.through view)) := by
  unfold ofBody
  rw [Procedure.signature_through]
  refine (mirrored_body accepted).bind fun body _ => ?_
  cases body with
  | none =>
      exact (mirrored_record _ _).bind fun _ _ => (mirrored_debug _ _).bind fun _ _ => .pure _
  | some body =>
      refine (mirrored_depthMap accepted).bind fun depths _ => ?_
      simp only [id, Procedure.placed_through, callLines_through, ofCalls_through]
      exact (Mirrors.forM (fun line => mirrored_debug _ line) _).bind fun _ _ => .pure _

theorem mirrored_attempt {α : Type} {x y : Inspecting α} (mirrored : Mirrored view id x y) :
    Mirrored view id (fun i => .ok (x.attempt i).1 (x.attempt i).2)
      (fun i => .ok (y.attempt i).1 (y.attempt i).2) := by
  intro i settled
  obtain ⟨seen, settledNow⟩ := mirrored.attempt settled
  refine ⟨?_, settledNow⟩
  simp only [seen]
  cases (x.attempt i).1 <;> rfl

/-- Whether a procedure is library code is asked before its body. -/
theorem CostRecord.mirrored_extract (p : Procedure) :
    Mirrored view id (extract p) (extract (p.through view)) := by
  unfold extract
  refine (mirrored_isApplication p).bind fun answer asked => ?_
  cases answer with
  | false =>
      simp only [Procedure.signature_through]
      exact .pure _
  | true =>
      have accepted : config.isApplicationClass p.declaringClass = true := by
        obtain ⟨i, j, settled, returned⟩ := asked
        have answered := (ok_of_ask returned).2
        exact settled.configured ▸ Inspection.accepted_of_isApplication answered
      rw [Procedure.signature_through]
      refine (mirrored_debug _ _).bind fun _ _ => ?_
      refine (mirrored_attempt (mirrored_ofBody accepted)).bind fun result _ => ?_
      cases result with
      | ok r => exact .pure r
      | error fault =>
          exact (mirrored_record _ _).bind fun _ _ => (mirrored_warning _ _).bind fun _ _ => .pure _

end Costs

/-- The costs known for the program seen through a view. -/
def Costs.through (costs : Costs) : Costs := { costs with inspection := costs.inspection.through view }

namespace Costing

open Inspecting

/-- Whether a computation does through a view what another one does on the program itself. -/
abbrev Mirrored {α β : Type} (f : α → β) (x : Costing α) (y : Costing β) : Prop :=
  Mirrors (Costs.through view) (fun costs => costs.inspection.program.Settled config) f x y

variable {view}

theorem mirrored_inspect {α β : Type} {f : α → β} {x : Inspecting α} {y : Inspecting β}
    (mirrored : Inspecting.Mirrored view f x y) : Mirrored view f (inspect x) (inspect y) := by
  intro costs settled
  cases result : x costs.inspection with
  | ok a i =>
      obtain ⟨seen, settledNow⟩ := mirrored.of_ok settled result
      rw [inspect_of_ok result]
      exact ⟨inspect_of_ok seen, settledNow⟩
  | error fault i =>
      obtain ⟨seen, settledNow⟩ := mirrored.of_error settled result
      rw [inspect_of_error result]
      exact ⟨inspect_of_error seen, settledNow⟩

theorem mirrored_modifyStore (change : CostStore → CostStore) :
    Mirrored view id (modifyStore change) (modifyStore change) :=
  .modify (fun _ => rfl) fun _ settled => settled

theorem mirrored_cost (p : Procedure) : Mirrored view id (cost p) (cost (p.through view)) := by
  unfold cost
  simp only [Procedure.signature_through]
  refine (mirrored_inspect (mirrored_answer .cost (.text p.signature))).bind fun _ _ => ?_
  refine .seeing fun costs _ => ?_
  simp only [Costs.through]
  cases costs.store.best? p.signature with
  | some r => exact .pure r
  | none =>
      refine (mirrored_inspect (CostRecord.mirrored_extract p)).bind fun r _ => ?_
      refine (mirrored_modifyStore _).bind fun _ _ => ?_
      exact (mirrored_inspect (mirrored_debug _ _)).bind fun _ _ => .pure r

theorem mirrored_localCost (p : Procedure) :
    Mirrored view id (localCost p) (localCost (p.through view)) := by
  unfold localCost
  simp only [Procedure.signature_through]
  refine .seeing fun costs _ => ?_
  simp only [Costs.through]
  cases (costs.store.locals.get? p.signature).or (costs.store.external.get? p.signature) with
  | some r => exact .pure r
  | none =>
      refine (mirrored_inspect (CostRecord.mirrored_extract p)).bind fun r _ => ?_
      exact (mirrored_modifyStore _).bind fun _ _ => .pure r

theorem mirrored_extractFrom (count : Nat) (procedures : List Procedure) :
    Mirrored view id (extractFrom count procedures)
      (extractFrom count (procedures.map (·.through view))) := by
  induction procedures generalizing count with
  | nil => exact .pure count
  | cons p rest ih =>
      rw [List.map_cons, extractFrom, extractFrom]
      refine (mirrored_inspect (mirrored_isApplication p)).bind fun answer _ => ?_
      cases answer with
      | false => exact ih count
      | true =>
          refine (mirrored_inspect (CostRecord.mirrored_extract p)).bind fun r _ => ?_
          rw [Procedure.signature_through]
          exact (mirrored_modifyStore _).bind fun _ _ => ih (count + 1)

theorem mirrored_extractAll (procedures : List Procedure) :
    Mirrored view id (extractAll procedures) (extractAll (procedures.map (·.through view))) :=
  (mirrored_extractFrom 0 procedures).bind fun count _ =>
    (mirrored_inspect (mirrored_info _ _)).bind fun _ _ => .pure count

end Costing

/-! ## Propagating -/

/-- The call with its target seen through a view. -/
def PendingCall.through {g : CallGraph} (call : PendingCall g) : PendingCall (g.through view) where
  index := call.index
  depth := call.depth
  target := call.target.through view
  isCallee := by
    rw [CallGraph.callees_through, Procedure.signature_through]
    exact call.isCallee

def Frame.through {g : CallGraph} (frame : Frame g) : Frame (g.through view) where
  procedure := frame.procedure.through view
  pending := frame.pending.map (·.through view)

namespace Propagation

/-- The propagation over the graph seen through a view. -/
def through {g : CallGraph} (s : Propagation g) : Propagation (g.through view) where
  costs := s.costs.through view
  resolved := s.resolved
  stack := s.stack.map (·.through view)

variable {view} {g : CallGraph}

theorem callsAt_through (depths : DepthMap) (placed : Site × Statement) :
    callsAt (g.through view) depths (view.placed placed) =
      (callsAt g depths placed).map (·.through view) := by
  obtain ⟨site, s⟩ := placed
  unfold callsAt
  simp only [View.placed, view.isCall, view.index]
  by_cases isCall : s.isCall
  · simp only [isCall, if_true]
    apply List.ext_getElem
    · simp
    · intro n h₁ h₂
      simp [PendingCall.through, CallEdge.through]
  · simp [isCall]

theorem mirrored_begin {p : Procedure}
    (accepted : config.isApplicationClass p.declaringClass = true) :
    Costing.Mirrored view (List.map (·.through view)) (begin g p)
      (begin (g.through view) (p.through view)) := by
  unfold begin
  rw [Procedure.signature_through]
  refine (Costing.mirrored_inspect (Inspecting.mirrored_body accepted)).bind fun body _ => ?_
  cases body with
  | none =>
      refine (Costing.mirrored_modifyStore _).bind fun _ _ => ?_
      exact (Costing.mirrored_inspect (Inspecting.mirrored_debug _ _)).bind fun _ _ => .pure []
  | some body =>
      refine (Costing.mirrored_localCost p).bind fun start _ => ?_
      refine (Costing.mirrored_modifyStore _).bind fun _ _ => ?_
      refine (Costing.mirrored_inspect (Inspecting.mirrored_depthMap accepted)).bind
        fun depths _ => ?_
      refine .returns ?_
      rw [Procedure.placed_through, List.flatMap_map, List.map_flatMap]
      exact congrArg (List.flatMap · _) (funext fun placed => callsAt_through depths placed)

theorem enter_through {p : Procedure}
    (accepted : config.isApplicationClass p.declaringClass = true) {costs : Costs}
    (settled : costs.inspection.program.Settled config) :
    enter (g := g.through view) (p.through view) (costs.through view) =
        ((enter (g := g) p costs).1.through view, (enter p costs).2.map (·.through view)) ∧
      (enter (g := g) p costs).1.inspection.program.Settled config := by
  unfold enter
  cases begins : begin g p costs with
  | ok pending after =>
      obtain ⟨seen, settledNow⟩ := (mirrored_begin accepted).of_ok settled begins
      rw [seen]
      exact ⟨rfl, settledNow⟩
  | error fault after =>
      obtain ⟨seen, settledNow⟩ := (mirrored_begin accepted).of_error settled begins
      rw [seen]
      refine ⟨?_, settledNow⟩
      simp only [recordFailure, Procedure.signature_through]
      rfl

theorem recordSkipped_through (p : Procedure) (call : PendingCall g) (fault : Fault) (costs : Costs) :
    recordSkipped (p.through view) (call.through view) fault (costs.through view) =
      (recordSkipped p call fault costs).through view := by
  simp only [recordSkipped, Procedure.signature_through]
  rfl

theorem foldCall_through (p : Procedure) (call : PendingCall g) {costs : Costs}
    (settled : costs.inspection.program.Settled config) :
    foldCall (p.through view) (call.through view) (costs.through view) =
        (foldCall p call costs).through view ∧
      (foldCall p call costs).inspection.program.Settled config := by
  have mirrored : Costing.Mirrored view id (Costing.cost call.target)
    (Costing.cost (call.target.through view)) := Costing.mirrored_cost call.target
  unfold foldCall
  cases priced : Costing.cost call.target costs with
  | ok callee after =>
      obtain ⟨seen, settledNow⟩ := mirrored.of_ok settled priced
      have seen : Costing.cost (call.through view).target (costs.through view) = _ := seen
      rw [seen]
      refine ⟨?_, settledNow⟩
      simp only [Procedure.signature_through, Procedure.subsignature_through, PendingCall.through]
      rfl
  | error fault after =>
      obtain ⟨seen, settledNow⟩ := mirrored.of_error settled priced
      have seen : Costing.cost (call.through view).target (costs.through view) = _ := seen
      rw [seen]
      exact ⟨recordSkipped_through p call fault after, settledNow⟩

theorem through_eq_onStack {s : Propagation g} {frame : Frame g} {rest : List (Frame g)}
    (onTop : s.stack = frame :: rest) :
    s.through view = Resolution.onStack { costs := s.costs.through view, resolved := s.resolved }
      (frame.through view :: rest.map (·.through view)) := by
  simp [through, Resolution.onStack, onTop]

theorem drain_through {s : Propagation g} (settled : s.costs.inspection.program.Settled config) :
    (s.through view).drain = s.drain.through view ∧
      s.drain.costs.inspection.program.Settled config := by
  have sameTarget (call : PendingCall g) :
      (call.through view).target.signature = call.target.signature :=
    Procedure.signature_through view call.target
  have sameAnswer (s : Propagation g) (call : PendingCall g) :
      (s.costs.through view).inspection.isApplication (call.through view).target =
        s.costs.inspection.isApplication call.target :=
    s.costs.inspection.isApplication_through view call.target
  fun_induction drain s with
  | case1 s idle =>
      have onStack : s.through view = Resolution.onStack
          { costs := s.costs.through view, resolved := s.resolved } [] := by
        simp [through, Resolution.onStack, idle]
      rw [onStack, Resolution.drain_nil]
      exact ⟨rfl, settled⟩
  | case2 s p rest onTop ih =>
      obtain ⟨others, settledLast⟩ := ih settled
      rw [through_eq_onStack onTop]
      exact ⟨Resolution.drain_finished.trans others, settledLast⟩
  | case3 s p call pending rest onTop target done isResolved ih =>
      obtain ⟨folded, settledNow⟩ := foldCall_through p call settled
      obtain ⟨others, settledLast⟩ := ih settledNow
      rw [through_eq_onStack onTop]
      refine ⟨?_, settledLast⟩
      refine (Resolution.drain_fold (.inl ((sameTarget call).symm ▸ isResolved))).trans ?_
      rw [folded]
      exact others
  | case4 s p call pending rest onTop target done isNew fault unclear ih =>
      obtain ⟨others, settledLast⟩ := ih settled
      rw [through_eq_onStack onTop]
      refine ⟨?_, settledLast⟩
      refine (Resolution.drain_skip ((sameTarget call).symm ▸ isNew)
        ((sameAnswer s call).trans unclear)).trans ?_
      rw [recordSkipped_through]
      exact others
  | case5 s p call pending rest onTop target done isNew isLibrary ih =>
      obtain ⟨folded, settledNow⟩ := foldCall_through p call settled
      obtain ⟨others, settledLast⟩ := ih settledNow
      rw [through_eq_onStack onTop]
      refine ⟨?_, settledLast⟩
      refine (Resolution.drain_fold (.inr ((sameAnswer s call).trans isLibrary))).trans ?_
      rw [folded]
      exact others
  | case6 s p call pending rest onTop target isNew isApplication costs frames entered ih =>
      -- The target is application code, so the view keeps what its body says about calls.
      have accepted : config.isApplicationClass call.target.declaringClass = true :=
        settled.configured ▸ Inspection.accepted_of_isApplication isApplication
      obtain ⟨enters, settledNow⟩ := enter_through (g := g) accepted settled
      rw [entered] at enters settledNow
      obtain ⟨others, settledLast⟩ := ih settledNow
      rw [through_eq_onStack onTop]
      refine ⟨?_, settledLast⟩
      refine (Resolution.drain_enter ((sameTarget call).symm ▸ isNew)
        ((sameAnswer s call).trans isApplication)).trans ?_
      have enters : enter (g := g.through view) (call.through view).target (s.costs.through view) =
          (costs.through view, frames.map (·.through view)) := enters
      rw [enters, sameTarget, ← others]
      congr 1
      simp only [through, List.map_append, List.map_cons]
      rfl

theorem visit_through {s : Propagation g} (settled : s.costs.inspection.program.Settled config)
    {p : Procedure} (accepted : config.isApplicationClass p.declaringClass = true) :
    (s.through view).visit (p.through view) = (s.visit p).through view ∧
      (s.visit p).costs.inspection.program.Settled config := by
  unfold visit
  rw [Procedure.signature_through]
  by_cases isResolved : p.signature ∈ s.resolved
  · have isResolvedThere : p.signature ∈ (s.through view).resolved := isResolved
    rw [if_pos isResolved, if_pos isResolvedThere]
    exact ⟨rfl, settled⟩
  · have isNewThere : p.signature ∉ (s.through view).resolved := isResolved
    obtain ⟨enters, settledNow⟩ := enter_through (g := g) accepted settled
    have enters : enter (g := g.through view) (p.through view) (s.through view).costs = _ := enters
    rw [if_neg isResolved, if_neg isNewThere, enters]
    obtain ⟨drained, settledLast⟩ := drain_through (g := g)
      (s := { costs := (enter (g := g) p s.costs).1, resolved := p.signature :: s.resolved
              stack := (enter p s.costs).2 ++ s.stack }) settledNow
    refine ⟨?_, settledLast⟩
    rw [← drained]
    simp only [through, List.map_append]

theorem visitAll_through {s : Propagation g} (settled : s.costs.inspection.program.Settled config)
    {roots : List Procedure}
    (accepted : ∀ p ∈ roots, config.isApplicationClass p.declaringClass = true) :
    (roots.map (·.through view)).foldl visit (s.through view) = (roots.foldl visit s).through view ∧
      (roots.foldl visit s).costs.inspection.program.Settled config := by
  induction roots generalizing s with
  | nil => exact ⟨rfl, settled⟩
  | cons p rest ih =>
      obtain ⟨first, others⟩ := List.forall_mem_cons.mp accepted
      obtain ⟨visited, settledNow⟩ := visit_through settled first
      rw [List.map_cons, List.foldl_cons, List.foldl_cons, visited]
      exact ih settledNow others

theorem run_through (view : View config) (g : CallGraph) {costs : Costs}
    (settled : costs.inspection.program.Settled config) :
    run (g.through view) (costs.through view) = (run g costs).through view ∧
      (run g costs).costs.inspection.program.Settled config := by
  let begun : Costs :=
    noting (·.info .propagation "Propagating invocations through the call graph") costs
  have settledBegun : begun.inspection.program.Settled config := settled
  have roots : (begun.through view).inspection.program.applicationProcedures =
      begun.inspection.program.applicationProcedures.map (·.through view) :=
    begun.inspection.program.applicationProcedures_through view
  obtain ⟨visited, settledNow⟩ :=
    visitAll_through (g := g) (s := { costs := begun }) settled settledBegun.accepted
  have visitedThere : (begun.through view).inspection.program.applicationProcedures.foldl visit
      ({ costs := begun.through view } : Propagation (g.through view)) = _ :=
    (congrArg (List.foldl visit _) roots).trans visited
  refine ⟨?_, settledNow⟩
  exact (congrArg (fun s : Propagation (g.through view) => ({ s with
    costs := noting (·.info .propagation s!"Resolved {s.resolved.length} procedures") s.costs } :
      Propagation (g.through view))) visitedThere).trans rfl

end Propagation

/-! ## The whole analysis -/

namespace CallGraph

open Inspecting

variable {view}

theorem mirrored_addTargets (p : Procedure) (site : Site) (s : Statement) (kind : EdgeKind)
    (g : CallGraph) (names : List Json) :
    Mirrored view (·.through view) (addTargets p site s kind g names)
      (addTargets (p.through view) site (view.statement s) kind (g.through view) names) := by
  induction names generalizing g with
  | nil => exact .pure g
  | cons name rest ih =>
      rw [addTargets, addTargets, view.index]
      refine (mirrored_procedure name).bind fun target _ => ?_
      have next := ih (g.addEdge { source := p, site, index := s.index, target, kind })
      rwa [← addEdge_through] at next

theorem mirrored_addStatement (p : Procedure) (g : CallGraph) (placed : Site × Statement) :
    Mirrored view (·.through view) (addStatement p g placed)
      (addStatement (p.through view) (g.through view) (view.placed placed)) := by
  simp only [addStatement, View.placed, view.declaredTargets]
  exact mirrored_addTargets p placed.1 placed.2 _ g placed.2.declaredTargets

theorem mirrored_addProcedure {p : Procedure}
    (accepted : config.isApplicationClass p.declaringClass = true) (g : CallGraph) :
    Mirrored view (·.through view) (addProcedure g p) (addProcedure (g.through view) (p.through view)) := by
  refine (mirrored_body accepted).bind fun body _ => ?_
  cases body with
  | none => exact .pure g
  | some body =>
      simp only [Option.map_some, Procedure.placed_through]
      exact .foldlM (fun g placed _ => mirrored_addStatement p g placed) g

theorem mirrored_build : Mirrored view (·.through view) build build := by
  refine mirrored_requireNames.bind fun _ _ => .seeing fun i settled => ?_
  have roots : (i.through view).program.applicationProcedures =
      i.program.applicationProcedures.map (·.through view) :=
    i.program.applicationProcedures_through view
  have added : Mirrored view (·.through view)
      (i.program.applicationProcedures.foldlM addProcedure ({} : CallGraph))
      ((i.program.applicationProcedures.map (·.through view)).foldlM addProcedure ({} : CallGraph)) :=
    Mirrors.foldlM (fun g p listed => mirrored_addProcedure (settled.accepted p listed) g) {}
  rw [roots]
  refine added.bind fun g _ => ?_
  have nodes : (g.through view).nodes.size = g.nodes.size := OrderedMap.size_mapValues _ _
  have edges : (g.through view).edges.length = g.edges.length := List.length_map _
  rw [nodes, edges]
  exact (mirrored_info _ _).bind fun _ _ => .pure g

end CallGraph

namespace Analysis

open Inspecting

/-- The analysis with the procedures of its graph seen through a view. -/
def through (a : Analysis) : Analysis :=
  { a with graph := a.graph.through view, synthetic := a.synthetic.map (·.through view) }

variable {view}

theorem mirrored_warn : Mirrored view id (warn config) (warn config) :=
  (Mirrors.ofExcept _).bind fun warnings _ =>
    Mirrors.forM (fun _ => mirrored_warning _ _) warnings

theorem mirrored_augment (rules : List DispatchRule) (g : CallGraph) :
    Mirrored view (Prod.map (·.through view) (List.map (·.through view))) (augment rules g)
      (augment rules (g.through view)) := by
  refine .seeing fun i settled => ?_
  let start : Augmentation := { inspection := i, graph := g }
  have settledNow : (Augmentation.run rules config start).inspection.program.Settled config :=
    settled.alike (Augmentation.alike_run rules config start).program
  have configuredThere : (i.through view).program.config = config := settled.configured
  rw [settled.configured, configuredThere]
  refine .ite ?_ (.pure (g, []))
  have ran : Augmentation.run rules config
      { inspection := i.through view, graph := g.through view } = _ :=
    Augmentation.run_through (a := start) settled rules
  simp only [ran]
  -- Only the results of the run matter from here on.
  generalize Augmentation.run rules config start = last at settledNow
  exact (mirrored_set settledNow).bind fun _ _ => .pure _

theorem mirrored_costs (g : CallGraph) :
    Mirrored view id (costs g) (costs (g.through view)) := by
  refine (mirrored_info _ _).bind fun _ _ => .seeing fun i settled => ?_
  have roots : (i.through view).program.applicationProcedures =
      i.program.applicationProcedures.map (·.through view) :=
    i.program.applicationProcedures_through view
  have counts : Costing.Mirrored view id (Costing.extractAll i.program.applicationProcedures)
      (Costing.extractAll (i.program.applicationProcedures.map (·.through view))) :=
    Costing.mirrored_extractAll i.program.applicationProcedures
  rw [roots]
  cases counted : Costing.extractAll i.program.applicationProcedures { inspection := i } with
  | error fault after =>
      obtain ⟨seen, settledNow⟩ := counts.of_error settled counted
      have seen : Costing.extractAll (i.program.applicationProcedures.map (·.through view))
        { inspection := i.through view } = _ := seen
      simp only [seen]
      exact (mirrored_set settledNow).bind fun _ _ => .throw fault
  | ok count after =>
      obtain ⟨seen, settledNow⟩ := counts.of_ok settled counted
      have seen : Costing.extractAll (i.program.applicationProcedures.map (·.through view))
        { inspection := i.through view } = _ := seen
      obtain ⟨ran, settledLast⟩ := Propagation.run_through view g settledNow
      simp only [seen, ran]
      exact (mirrored_set settledLast).bind fun _ _ => .pure _

theorem mirrored_ofGraph (rules : List DispatchRule) (g : CallGraph) :
    Mirrored view (·.through view) (ofGraph rules g) (ofGraph rules (g.through view)) := by
  refine .seeing fun i settled => ?_
  have configuredThere : (i.through view).program.config = config := settled.configured
  rw [settled.configured, configuredThere]
  refine mirrored_warn.bind fun _ _ => (mirrored_augment rules g).bind fun augmented _ => ?_
  obtain ⟨g, synthetic⟩ := augmented
  refine (mirrored_costs g).bind fun store _ => ?_
  have cycles : (g.through view).cycles = g.cycles := g.cycles_through view
  dsimp only
  rw [cycles]
  refine .optional (mirrored_info _ _) (.seeing fun i _ => ?_)
  refine .optional (mirrored_info _ _) (.returns ?_)
  simp only [through]
  rfl

theorem mirrored_ofProgram : Mirrored view (·.through view) ofProgram ofProgram :=
  CallGraph.mirrored_build.bind fun g _ => mirrored_ofGraph DispatchRule.all g

/-- Programs that look the same have analyses that look the same, and lead to the same log. -/
theorem endAlike_ofProgram {first second : Program} (settled : first.Settled config)
    (settledOther : second.Settled config) (same : first.through view = second.through view)
    (failures : List QueryFailure) :
    EndAlike (fun a b => a.through view = b.through view) (fun i j => i.log = j.log)
      (ofProgram { program := first, failures }) (ofProgram { program := second, failures }) := by
  have sameView : Inspection.through view { program := first, failures } =
      Inspection.through view { program := second, failures } := by
    simp only [Inspection.through, same]
  have sameLog (i j : Inspection) (same : i.through view = j.through view) : i.log = j.log := by
    simp only [Inspection.through, Inspection.mk.injEq] at same
    exact same.2.2.1
  exact (mirrored_ofProgram.agree settled settledOther sameView).imp (fun _ _ same => same) sameLog

end Analysis

end CallWeight
