import CallWeight.Proofs.Answers
import CallWeight.Proofs.LocalCosts

/-! # What computations leave alone

Counting the calls of a procedure writes to the log, may record issues of its own phase and makes the
program remember the loop depths of the procedure. Whatever a view shows besides, a computation that
counts leaves it as it is. Two views matter to propagation: the issues of a phase, and the loop depths
that the program would tell for a procedure.
-/

namespace CallWeight

section Leaves

variable {ε σ α β γ : Type}

/-- The state after a computation, with or without a result. -/
def stateAfter (x : EStateM ε σ α) (s : σ) : σ :=
  match x s with
  | .ok _ t => t
  | .error _ t => t

/-- Whether a computation never changes what a view shows of the state. -/
def Leaves (view : σ → γ) (x : EStateM ε σ α) : Prop := ∀ s, view (stateAfter x s) = view s

variable {view : σ → γ} {x : EStateM ε σ α} {f : α → EStateM ε σ β}

theorem Leaves.ok (leaves : Leaves view x) {s t : σ} {a : α} (returned : x s = .ok a t) :
    view t = view s := by
  have after := leaves s
  rwa [stateAfter, returned] at after

theorem Leaves.error (leaves : Leaves view x) {s t : σ} {e : ε} (failed : x s = .error e t) :
    view t = view s := by
  have after := leaves s
  rwa [stateAfter, failed] at after

theorem Leaves.bind (first : Leaves view x) (second : ∀ a, Leaves view (f a)) :
    Leaves view (x >>= f) := by
  intro s
  cases result : x s with
  | ok a t =>
      have same : stateAfter (x >>= f) s = stateAfter (f a) t := by
        simp only [stateAfter, bind_of_ok result]
      rw [same]
      exact (second a t).trans (first.ok result)
  | error e t =>
      simp only [stateAfter, bind_of_error result]
      exact first.error result

theorem leaves_pure (a : α) : Leaves view (pure a : EStateM ε σ α) := fun _ => rfl

theorem leaves_ofExcept (result : Except ε α) : Leaves view (ofExcept result : EStateM ε σ α) := by
  cases result with
  | ok a => exact fun _ => rfl
  | error fault => exact fun _ => rfl

end Leaves

theorem Inspecting.leaves_ask {α γ : Type} {view : Inspection → γ}
    (question : Inspection → Except Fault α) : Leaves view (ask question) :=
  Leaves.bind (fun _ => rfl) fun _ => leaves_ofExcept _

section Counting

variable {γ : Type} {view : Inspection → γ} {p : Procedure}

/-- Whether a view shows nothing of what counting the calls of a procedure leaves behind: lines in the
    log, issues of the counting phase and the loop depths of the procedure. -/
structure Overlooks (view : Inspection → γ) (p : Procedure) : Prop where
  debug : ∀ channel message, Leaves view (Inspecting.debug channel message)
  warning : ∀ channel message, Leaves view (Inspecting.warning channel message)
  record : ∀ failure, Leaves view (Inspecting.record "extract" failure)
  depthMap : Leaves view (Inspecting.depthMap p)

namespace Overlooks

variable (overlooks : Overlooks view p)

include overlooks

theorem ofBody : Leaves view (CostRecord.ofBody p) := by
  refine (Inspecting.leaves_ask _).bind fun body => ?_
  cases body with
  | none =>
      exact (overlooks.record _).bind fun _ => (overlooks.debug _ _).bind fun _ => leaves_pure _
  | some body =>
      refine overlooks.depthMap.bind fun depths => Leaves.bind ?_ fun _ => leaves_pure _
      induction CostRecord.callLines depths (p.placed body) with
      | nil => exact leaves_pure _
      | cons line rest ih => exact (overlooks.debug _ _).bind fun _ => ih

theorem extract : Leaves view (CostRecord.extract p) := by
  refine (Inspecting.leaves_ask _).bind fun isApplication => ?_
  cases isApplication with
  | false => exact leaves_pure _
  | true =>
      refine (overlooks.debug _ _).bind fun _ => Leaves.bind (fun i => ?_) fun result => ?_
      · have counted := overlooks.ofBody i
        unfold stateAfter at counted
        unfold Inspecting.attempt stateAfter
        cases result : CostRecord.ofBody p i with
        | ok r j => simpa [result] using counted
        | error fault j => simpa [result] using counted
      · cases result with
        | ok r => exact leaves_pure _
        | error fault =>
            exact (overlooks.record _).bind fun _ => (overlooks.warning _ _).bind fun _ =>
              leaves_pure _

end Overlooks

end Counting

/-! ## Issues and loop depths -/

/-- The issues of a phase. -/
def Inspection.issuesIn (phase : Text) (i : Inspection) : IssueLog :=
  i.issues.filter fun issue => issue.phase = phase

theorem Inspecting.depthMap_eq (p : Procedure) (i : Inspection) :
    depthMap p i =
      match i.failure? .depths (.text p.signature) with
      | some fault => .error fault i
      | none => .ok (i.program.depthMap p).1 { i with program := (i.program.depthMap p).2 } := by
  have started : (get : Inspecting Inspection) i = .ok i i := rfl
  unfold depthMap
  rw [bind_of_ok started]
  cases i.failure? .depths (.text p.signature) <;> rfl

/-- Counting the calls of a procedure records issues of its own phase only. -/
theorem overlooks_issuesIn {phase : Text} (different : ("extract" : Text) ≠ phase) (p : Procedure) :
    Overlooks (Inspection.issuesIn phase) p where
  debug _ _ _ := rfl
  warning _ _ _ := rfl
  record failure i := by
    have recorded : stateAfter (Inspecting.record "extract" failure) i =
        i.record "extract" failure := rfl
    rw [recorded]
    simp [Inspection.record, IssueLog.record, Inspection.issuesIn, Issue.ofFailure, different]
  depthMap i := by
    unfold stateAfter
    rw [Inspecting.depthMap_eq]
    cases i.failure? .depths (.text p.signature) <;> rfl

namespace Program

theorem depthMap_of_cached {program : Program} {p : Procedure} {depths : DepthMap}
    (cached : program.depthCache.get? p.signature = some depths) :
    program.depthMap p = (depths, program) := by
  simp only [depthMap, cached]

theorem depthCache_self (program : Program) (p : Procedure) :
    (program.depthMap p).2.depthCache.get? p.signature = some (program.depthMap p).1 := by
  cases cached : program.depthCache.get? p.signature with
  | some depths => simp only [depthMap_of_cached cached, cached]
  | none => simp only [depthMap, cached, OrderedMap.get?_insert, if_true]

/-- Telling the loop depths of a procedure changes no answer about itself or about other signatures. -/
theorem depthMap_depthMap (program : Program) {p q : Procedure}
    (apart : q = p ∨ q.signature ≠ p.signature) :
    ((program.depthMap q).2.depthMap p).1 = (program.depthMap p).1 := by
  rcases apart with rfl | different
  · rw [depthMap_of_cached (program.depthCache_self q)]
  · have kept : (program.depthMap q).2.depthCache.get? p.signature =
        program.depthCache.get? p.signature := by
      cases cached : program.depthCache.get? q.signature with
      | some depths => rw [depthMap_of_cached cached]
      | none => simp only [depthMap, cached, OrderedMap.get?_insert, if_neg different]
    unfold depthMap at kept ⊢
    rw [kept]
    cases program.depthCache.get? p.signature <;> rfl

/-- The loop depth that a program tells for a statement: what it remembers under the signature of the
    procedure, else what the loops of the procedure say. -/
def statementDepth (program : Program) (p : Procedure) (position : Nat) : Nat :=
  match program.depthCache.get? p.signature with
  | some depths => depths.depthAt (p.site position)
  | none => p.loops.depthOf position

theorem depthAt_depthMap (program : Program) (p : Procedure) (position : Nat) :
    (program.depthMap p).1.depthAt (p.site position) = program.statementDepth p position := by
  unfold depthMap statementDepth
  cases program.depthCache.get? p.signature with
  | some depths => rfl
  | none => exact p.depthAt_site position

/-- A coherent program remembers nothing but what the loops say. -/
theorem statementDepth_of_knows {program : Program} (coherent : program.Coherent) {p : Procedure}
    (known : program.Knows p) (position : Nat) :
    program.statementDepth p position = p.loops.depthOf position := by
  rw [← depthAt_depthMap, depthMap_eq coherent known, p.depthAt_site]

end Program

/-- The loop depths that would be told for a procedure. -/
def Inspection.depthsOf (p : Procedure) (i : Inspection) : DepthMap := (i.program.depthMap p).1

theorem overlooks_depthsOf {p q : Procedure} (apart : q = p ∨ q.signature ≠ p.signature) :
    Overlooks (Inspection.depthsOf p) q where
  debug _ _ _ := rfl
  warning _ _ _ := rfl
  record _ _ := rfl
  depthMap i := by
    unfold stateAfter
    rw [Inspecting.depthMap_eq]
    cases i.failure? .depths (.text q.signature) with
    | some fault => rfl
    | none => exact i.program.depthMap_depthMap apart

namespace Propagation

/-- What a view shows of the inspection behind the costs, and the propagated costs. -/
def shown {γ : Type} (view : Inspection → γ) (costs : Costs) : OrderedMap Text CostRecord × γ :=
  (costs.store.propagated, view costs.inspection)

section Shown

variable {γ : Type} {view : Inspection → γ}

theorem leaves_inspect {α : Type} {x : Inspecting α} (leaves : Leaves view x) :
    Leaves (shown view) (Costing.inspect x) := by
  intro costs
  have same := leaves costs.inspection
  unfold stateAfter at same
  unfold stateAfter Costing.inspect shown
  cases result : x costs.inspection with
  | ok a i => simpa [result] using same
  | error fault i => simpa [result] using same

theorem leaves_putExternal (signature : Text) (r : CostRecord) :
    Leaves (shown view) (Costing.modifyStore (·.putExternal signature r)) := fun _ => rfl

theorem leaves_putLocal (signature : Text) (r : CostRecord) :
    Leaves (shown view) (Costing.modifyStore (·.putLocal signature r)) := fun _ => rfl

variable {p : Procedure} (overlooks : Overlooks view p)

include overlooks

theorem leaves_cost : Leaves (shown view) (Costing.cost p) := by
  refine (leaves_inspect (Inspecting.leaves_ask _)).bind fun _ =>
    Leaves.bind (fun _ => rfl) fun costs => ?_
  cases costs.store.best? p.signature with
  | some r => exact leaves_pure _
  | none =>
      exact (leaves_inspect overlooks.extract).bind fun _ => (leaves_putExternal _ _).bind fun _ =>
        (leaves_inspect (overlooks.debug _ _)).bind fun _ => leaves_pure _

theorem leaves_localCost : Leaves (shown view) (Costing.localCost p) := by
  refine Leaves.bind (fun _ => rfl) fun costs => ?_
  simp only
  cases (costs.store.locals.get? p.signature).or (costs.store.external.get? p.signature) with
  | some r => exact leaves_pure _
  | none =>
      exact (leaves_inspect overlooks.extract).bind fun _ => (leaves_putLocal _ _).bind fun _ =>
        leaves_pure _

end Shown

/-- What the steps of a propagation change in the costs, besides the log and the local costs. -/
abbrev visible : Costs → OrderedMap Text CostRecord × IssueLog :=
  shown (Inspection.issuesIn "propagate")

theorem overlooks_propagate (p : Procedure) : Overlooks (Inspection.issuesIn "propagate") p :=
  overlooks_issuesIn (by decide) p

theorem inspect_depthMap (p : Procedure) (costs : Costs) :
    Costing.inspect (Inspecting.depthMap p) costs =
      match costs.inspection.failure? .depths (.text p.signature) with
      | some fault => .error fault costs
      | none => .ok (costs.inspection.program.depthMap p).1
          { costs with inspection :=
            { costs.inspection with program := (costs.inspection.program.depthMap p).2 } } := by
  unfold Costing.inspect
  rw [Inspecting.depthMap_eq]
  cases costs.inspection.failure? .depths (.text p.signature) <;> rfl

theorem eq_depthsOf {p : Procedure} {costs after : Costs} {depths : DepthMap}
    (looked : Costing.inspect (Inspecting.depthMap p) costs = .ok depths after) :
    depths = costs.inspection.depthsOf p := by
  rw [inspect_depthMap] at looked
  cases refused : costs.inspection.failure? .depths (.text p.signature) with
  | some fault => simp [refused] at looked
  | none =>
      simp only [refused] at looked
      cases looked
      rfl

/-- Telling the cost of a procedure changes no depths of another signature, and the cost of library code
    is told without a look at its loops. -/
theorem depthsOf_cost {p q : Procedure} {costs : Costs} (apart : q.signature ≠ p.signature ∨
      costs.inspection.isApplication q = .ok false) :
    (stateAfter (Costing.cost q) costs).inspection.depthsOf p = costs.inspection.depthsOf p := by
  rcases apart with different | isLibrary
  · exact (Prod.mk.inj (leaves_cost (overlooks_depthsOf (.inr different)) costs)).2
  · have started : (get : Costing Costs) costs = .ok costs costs := rfl
    unfold stateAfter Costing.cost
    cases asked : costs.inspection.answer .cost (.text q.signature) (.ok ()) with
    | error fault => rw [bind_of_error (Costing.inspect_of_error (Inspecting.ask_of_error asked))]
    | ok done =>
        rw [bind_of_ok (Costing.inspect_of_ok (Inspecting.ask_of_ok asked)), bind_of_ok started]
        cases costs.store.best? q.signature with
        | some r => rfl
        | none =>
            have counted := Costing.inspect_of_ok (CostRecord.extract_of_library isLibrary)
            dsimp only
            rw [bind_of_ok counted]
            rfl

end Propagation

end CallWeight
