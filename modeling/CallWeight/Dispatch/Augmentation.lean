import CallWeight.Dispatch.Rule
import CallWeight.Unmet

/-! # Augmenting a call graph

The walk starts at every application procedure that was not visited before, applies the dispatch
rules to its call sites, and goes on to the targets of the edges it adds as long as they are
application code. Whatever cannot be classified is recorded and skipped, so the walk itself never
fails.
-/

namespace CallWeight

structure Augmentation where
  inspection : Inspection
  graph : CallGraph
  /-- Signatures whose procedures were visited. -/
  visited : List Text := []
  /-- The edges added so far, in order. -/
  added : List CallEdge := []
  deriving Inhabited

namespace Augmentation

def inspect (a : Augmentation) (change : Inspection → Inspection) : Augmentation :=
  { a with inspection := change a.inspection }

/-- Add one edge to each target that the call site has none to. The new edges come second. -/
def link (rule : DispatchRule) (caller : Procedure) (site : Site) (s : Statement)
    (a : Augmentation) : List Procedure → Augmentation × List CallEdge
  | [] => (a, [])
  | target :: rest =>
      if a.graph.hasEdge site target.signature then link rule caller site s a rest
      else
        let e : CallEdge :=
          { source := caller, site, index := s.index, target, kind := rule.edgeKind }
        let message := s!"Added {rule.name} edge from " ++ caller.signature ++ " to "
          ++ target.signature
        let a := { a with
          graph := a.graph.insertEdge e
          added := a.added ++ [e]
          inspection := a.inspection.debug .dispatch message }
        let (a, edges) := link rule caller site s a rest
        (a, e :: edges)

/-- Record a call site that no rule could judge. -/
def ignoreSite (a : Augmentation) (failure : Failure) : Augmentation :=
  a.inspect fun i =>
    (i.record "augment" failure).debug .dispatch ("Ignoring call site: " ++ failure.text)

/-- Apply the first rule that fits a call site. The new edges come second. -/
def applyRules (context : DispatchRule.Context) (caller : Procedure) (site : Site) (s : Statement)
    (a : Augmentation) : List DispatchRule → Augmentation × List CallEdge
  | [] => (a, [])
  | rule :: rest =>
      match (rule.judge context a.graph caller site s).attempt a.inspection with
      | (.ok .pass, i) => applyRules context caller site s { a with inspection := i } rest
      | (.ok (.targets targets), i) => link rule caller site s { a with inspection := i } targets
      | (.ok (.unclear failure), i) => (ignoreSite { a with inspection := i } failure, [])
      | (.error fault, i) =>
          (ignoreSite { a with inspection := i } {
            kind := .classificationFailure
            message := "call site could not be classified"
            procedure := some caller.signature
            statement := s.index
            cause := some fault.toCause }, [])

/-- Whether a target is application code. One that cannot be classified is recorded and taken for
    library code. -/
def isApplication (a : Augmentation) (p : Procedure) : Bool × Augmentation :=
  match a.inspection.isApplication p with
  | .ok answer => (answer, a)
  | .error fault =>
      let failure : Failure :=
        { kind := .classificationFailure
          message := "target could not be classified; not descended into"
          procedure := some p.signature
          cause := some fault.toCause }
      (false, a.inspect fun i =>
        (i.record "augment" failure).debug .dispatch ("Not descending: " ++ failure.text))

/-- The targets of new edges that the walk goes on to, the last one first, before `targets`. -/
def descend (a : Augmentation) (targets : List Procedure) :
    List CallEdge → Augmentation × List Procedure
  | [] => (a, targets)
  | e :: rest =>
      if a.visited.contains e.target.signature then descend a targets rest
      else
        let (answer, a) := a.isApplication e.target
        descend a (if answer then e.target :: targets else targets) rest

/-- Apply the rules to the call sites of a body. -/
def walkBody (rules : List DispatchRule) (context : DispatchRule.Context) (p : Procedure)
    (a : Augmentation) (targets : List Procedure) :
    List (Site × Statement) → Augmentation × List Procedure
  | [] => (a, targets)
  | (site, s) :: rest =>
      if s.isCall then
        let (a, edges) := applyRules context p site s a rules
        let (a, targets) := a.descend targets edges
        walkBody rules context p a targets rest
      else walkBody rules context p a targets rest

/-- Visit one procedure. The targets to go on to come second, the last one first. -/
def visit (rules : List DispatchRule) (context : DispatchRule.Context) (p : Procedure)
    (a : Augmentation) : Augmentation × List Procedure :=
  let a := { a with visited := p.signature :: a.visited }
  match a.inspection.body p with
  | .error fault =>
      let failure : Failure :=
        { kind := .extractionFailure
          message := "body could not be retrieved; call sites not augmented"
          procedure := some p.signature
          cause := some fault.toCause }
      (a.inspect fun i =>
        (i.record "augment" failure).warning .dispatch
          ("Skipping " ++ p.signature ++ ": " ++ failure.text), [])
  | .ok none =>
      (a.inspect (·.debug .dispatch ("Skipping " ++ p.signature ++ ": no body")), [])
  | .ok (some body) => walkBody rules context p a [] (p.placed body)

@[simp] theorem visited_inspect (a : Augmentation) (change : Inspection → Inspection) :
    (a.inspect change).visited = a.visited := rfl

@[simp] theorem visited_link (rule : DispatchRule) (caller : Procedure) (site : Site)
    (s : Statement) (a : Augmentation) (targets : List Procedure) :
    (link rule caller site s a targets).1.visited = a.visited := by
  induction targets generalizing a with
  | nil => rfl
  | cons target rest ih =>
      unfold link
      split <;> simp [ih]

@[simp] theorem visited_applyRules (context : DispatchRule.Context) (caller : Procedure)
    (site : Site) (s : Statement) (a : Augmentation) (rules : List DispatchRule) :
    (applyRules context caller site s a rules).1.visited = a.visited := by
  induction rules generalizing a with
  | nil => rfl
  | cons rule rest ih =>
      unfold applyRules
      split <;> simp [ih, ignoreSite]

@[simp] theorem visited_isApplication (a : Augmentation) (p : Procedure) :
    (a.isApplication p).2.visited = a.visited := by
  unfold isApplication
  split <;> rfl

@[simp] theorem visited_descend (a : Augmentation) (targets : List Procedure)
    (edges : List CallEdge) : (a.descend targets edges).1.visited = a.visited := by
  induction edges generalizing a targets with
  | nil => rfl
  | cons e rest ih =>
      unfold descend
      split <;> simp [ih]

@[simp] theorem visited_walkBody (rules : List DispatchRule) (context : DispatchRule.Context)
    (p : Procedure) (a : Augmentation) (targets : List Procedure)
    (body : List (Site × Statement)) :
    (walkBody rules context p a targets body).1.visited = a.visited := by
  induction body generalizing a targets with
  | nil => rfl
  | cons placed rest ih =>
      unfold walkBody
      split <;> simp [ih]

/-- A visit marks its own procedure and no other one. -/
@[simp] theorem visited_visit (rules : List DispatchRule) (context : DispatchRule.Context)
    (p : Procedure) (a : Augmentation) :
    (visit rules context p a).1.visited = p.signature :: a.visited := by
  unfold visit
  dsimp only
  split <;> simp

/-- Visit the procedures of a worklist and what they lead to. Only declared procedures have call
    sites, so only they lead further. -/
def walk (rules : List DispatchRule) (context : DispatchRule.Context) (declared : List Text) :
    List Procedure → Augmentation → Augmentation
  | [], a => a
  | p :: worklist, a =>
      if p.signature ∈ a.visited then walk rules context declared worklist a
      else
        let next := visit rules context p a
        if p.signature ∈ declared then
          walk rules context declared (next.2 ++ worklist) next.1
        else walk rules context declared worklist next.1
termination_by worklist a => ((unmet declared a.visited).length, worklist.length)
decreasing_by
  · exact Prod.Lex.right _ (Nat.lt_succ_self _)
  · rename_i isNew isDeclared
    apply Prod.Lex.left
    rw [visited_visit]
    exact length_unmet_cons_lt isDeclared isNew
  · apply Prod.Lex.right'
    · rw [visited_visit]
      exact length_unmet_le (List.subset_cons_self _ _) _
    · exact Nat.lt_succ_self _

/-- The signatures of all declared methods. -/
def declaredSignatures (program : Program) : List Text :=
  program.classes.values.flatMap fun c => c.methods.map (·.signature)

/-- Start a walk at each procedure that was not visited before. -/
def extend (rules : List DispatchRule) (context : DispatchRule.Context) (declared : List Text)
    (a : Augmentation) (roots : List Procedure) : Augmentation :=
  roots.foldl (fun a root =>
    if a.visited.contains root.signature then a
    else walk rules context declared [root] a) a

/-- Augment a graph from all application procedures. -/
def run (rules : List DispatchRule) (config : Config) (a : Augmentation) : Augmentation :=
  let (entries, i) := Dispatch.runnableEntries config a.inspection
  let context : DispatchRule.Context := { config, entries }
  let i := i.info .dispatch s!"Augmenting call graph ({entries.length} runnable entry points)"
  let a := extend rules context (declaredSignatures i.program)
    { a with inspection := i, added := [] } i.program.applicationProcedures
  a.inspect (·.info .dispatch s!"Added {a.added.length} synthetic call edges")

end Augmentation

end CallWeight
