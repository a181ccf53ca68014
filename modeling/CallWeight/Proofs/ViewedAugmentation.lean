import CallWeight.Proofs.CallSites
import CallWeight.Proofs.Views

/-! # Augmenting a program seen through a view

A computation is mirrored if it does on the program seen through a view the same as on the program
itself: it returns the view of what it returns here, or fails with the same fault, and writes the same
log. All questions about names, classes and entries are mirrored, and so is the question for a body as
long as it is asked about application code. A walk only visits application code, so a whole
augmentation is mirrored.
-/

namespace CallWeight

/-! ## Computations on views -/

/-- Whether two runs end alike: both return, or both fail with the same fault. What they return and
    the states that they leave behind are related. -/
inductive EndAlike {ε σ τ α β : Type} (related : α → β → Prop) (left : σ → τ → Prop) :
    EStateM.Result ε σ α → EStateM.Result ε τ β → Prop
  | ok {a : α} {b : β} {s : σ} {t : τ} (same : related a b) (sameState : left s t) :
      EndAlike related left (.ok a s) (.ok b t)
  | error {e : ε} {s : σ} {t : τ} (sameState : left s t) :
      EndAlike related left (.error e s) (.error e t)

namespace EndAlike

variable {ε σ τ α β : Type} {related weaker : α → β → Prop} {left weakerLeft : σ → τ → Prop}
  {x : EStateM.Result ε σ α} {y : EStateM.Result ε τ β} {s : σ}

theorem imp (alike : EndAlike related left x y)
    (results : ∀ {a b s t}, x = .ok a s → y = .ok b t → related a b → weaker a b)
    (states : ∀ s t, left s t → weakerLeft s t) : EndAlike weaker weakerLeft x y := by
  cases alike with
  | ok same sameState => exact .ok (results rfl rfl same) (states _ _ sameState)
  | error sameState => exact .error (states _ _ sameState)

theorem exists_ok {a : α} (alike : EndAlike related left (.ok a s) y) :
    ∃ b t, y = .ok b t ∧ related a b ∧ left s t := by
  cases alike with
  | ok same sameState => exact ⟨_, _, rfl, same, sameState⟩

theorem exists_error {e : ε} (alike : EndAlike related left (.error e s) y) :
    ∃ t, y = .error e t ∧ left s t := by
  cases alike with
  | error sameState => exact ⟨_, rfl, sameState⟩

end EndAlike

/-- Whether a computation does on the views of states what another one does on the states. It returns
    the image of what the other one returns, or fails with the same fault. -/
def Mirrors {ε σ τ α β : Type} (view : σ → τ) (fits : σ → Prop) (f : α → β)
    (x : EStateM ε σ α) (y : EStateM ε τ β) : Prop :=
  ∀ s, fits s →
    match x s with
    | .ok a t => y (view s) = .ok (f a) (view t) ∧ fits t
    | .error e t => y (view s) = .error e (view t) ∧ fits t

namespace Mirrors

variable {ε σ τ α β γ δ : Type} {view : σ → τ} {fits : σ → Prop} {f : α → β} {h : γ → δ}
  {x : EStateM ε σ α} {y : EStateM ε τ β} {s t : σ}

theorem of_ok (mirrors : Mirrors view fits f x y) {a : α} (fit : fits s) (returned : x s = .ok a t) :
    y (view s) = .ok (f a) (view t) ∧ fits t := by
  have result := mirrors s fit
  rwa [returned] at result

theorem of_error (mirrors : Mirrors view fits f x y) {e : ε} (fit : fits s)
    (failed : x s = .error e t) : y (view s) = .error e (view t) ∧ fits t := by
  have result := mirrors s fit
  rwa [failed] at result

/-- The second parts may rely on what the first parts return. -/
theorem bind {k : α → EStateM ε σ γ} {l : β → EStateM ε τ δ} (first : Mirrors view fits f x y)
    (second : ∀ a, (∃ s t, fits s ∧ x s = .ok a t) → Mirrors view fits h (k a) (l (f a))) :
    Mirrors view fits h (x >>= k) (y >>= l) := by
  intro s fit
  cases result : x s with
  | ok a t =>
      obtain ⟨seen, fitNow⟩ := first.of_ok fit result
      rw [bind_of_ok result, bind_of_ok seen]
      exact second a ⟨s, t, fit, result⟩ t fitNow
  | error e t =>
      obtain ⟨seen, fitNow⟩ := first.of_error fit result
      rw [bind_of_error result]
      exact ⟨bind_of_error seen, fitNow⟩

theorem pure (a : α) :
    Mirrors view fits f (pure a : EStateM ε σ α) (pure (f a) : EStateM ε τ β) :=
  fun _ fit => ⟨rfl, fit⟩

theorem returns {a : α} {b : β} (same : b = f a) :
    Mirrors view fits f (Pure.pure a : EStateM ε σ α) (Pure.pure b : EStateM ε τ β) := same ▸ pure a

theorem throw (e : ε) :
    Mirrors view fits f (throw e : EStateM ε σ α) (throw e : EStateM ε τ β) :=
  fun _ fit => ⟨rfl, fit⟩

theorem ofExcept (result : Except ε α) :
    Mirrors view fits id (ofExcept result : EStateM ε σ α) (ofExcept result : EStateM ε τ α) := by
  cases result with
  | ok a => exact pure a
  | error e => exact throw e

theorem ite {c : Prop} [Decidable c] {x₁ x₂ : EStateM ε σ α} {y₁ y₂ : EStateM ε τ β}
    (yes : Mirrors view fits f x₁ y₁) (no : Mirrors view fits f x₂ y₂) :
    Mirrors view fits f (if c then x₁ else x₂) (if c then y₁ else y₂) := by
  split
  · exact yes
  · exact no

/-- A step that both take or both leave out. -/
theorem optional {c : Prop} [Decidable c] {x : EStateM ε σ Unit} {y : EStateM ε τ Unit}
    {k : Unit → EStateM ε σ γ} {l : Unit → EStateM ε τ δ} (step : Mirrors view fits id x y)
    (next : Mirrors view fits h (k ()) (l ())) :
    Mirrors view fits h (if c then x >>= k else k ()) (if c then y >>= l else l ()) :=
  .ite (step.bind fun _ _ => next) next

/-- Both look at the state before they go on. -/
theorem seeing {k : σ → EStateM ε σ γ} {l : τ → EStateM ε τ δ}
    (next : ∀ s, fits s → Mirrors view fits h (k s) (l (view s))) :
    Mirrors view fits h (get >>= k) (get >>= l) := by
  intro s fit
  exact next s fit s fit

theorem modify {change : σ → σ} {changeView : τ → τ}
    (same : ∀ s, changeView (view s) = view (change s)) (kept : ∀ s, fits s → fits (change s)) :
    Mirrors view fits id (modify change : EStateM ε σ PUnit)
      (modify changeView : EStateM ε τ PUnit) := by
  intro s fit
  exact ⟨congrArg (EStateM.Result.ok ()) (same s), kept s fit⟩

theorem set {s : σ} (fit : fits s) :
    Mirrors view fits id (set s : EStateM ε σ PUnit) (set (view s) : EStateM ε τ PUnit) :=
  fun _ _ => ⟨rfl, fit⟩

theorem foldlM {ι κ : Type} {round : γ → ι → EStateM ε σ γ} {roundView : δ → κ → EStateM ε τ δ}
    {seen : ι → κ} {items : List ι}
    (step : ∀ c, ∀ item ∈ items,
      Mirrors view fits h (round c item) (roundView (h c) (seen item))) (c : γ) :
    Mirrors view fits h (items.foldlM round c) ((items.map seen).foldlM roundView (h c)) := by
  induction items generalizing c with
  | nil => exact pure c
  | cons item rest ih =>
      rw [List.map_cons, List.foldlM_cons, List.foldlM_cons]
      refine (step c item List.mem_cons_self).bind fun next _ => ?_
      exact ih (fun c item inRest => step c item (List.mem_cons_of_mem _ inRest)) next

theorem forM {α : Type} {action : α → EStateM ε σ PUnit} {actionView : α → EStateM ε τ PUnit}
    (step : ∀ a, Mirrors view fits id (action a) (actionView a)) (items : List α) :
    Mirrors view fits id (items.forM action) (items.forM actionView) := by
  induction items with
  | nil => exact pure PUnit.unit
  | cons a rest ih => exact (step a).bind fun _ _ => ih

/-- From states with the same view a computation leads to results with the same image. -/
theorem agree (mirrors : Mirrors view fits f x y) (fit : fits s) (fitOther : fits t)
    (same : view s = view t) :
    EndAlike (fun a b => f a = f b) (fun u v => view u = view v) (x s) (x t) := by
  have first := mirrors s fit
  have second := mirrors t fitOther
  rw [same] at first
  cases result : x s with
  | ok a u =>
      rw [result] at first
      cases resultOther : x t with
      | ok b v =>
          rw [resultOther] at second
          obtain ⟨sameResult, sameView⟩ := EStateM.Result.ok.inj (first.1.symm.trans second.1)
          exact .ok sameResult sameView
      | error e v =>
          rw [resultOther] at second
          cases first.1.symm.trans second.1
  | error e u =>
      rw [result] at first
      cases resultOther : x t with
      | ok b v =>
          rw [resultOther] at second
          cases first.1.symm.trans second.1
      | error e' v =>
          rw [resultOther] at second
          obtain ⟨rfl, sameView⟩ := EStateM.Result.error.inj (first.1.symm.trans second.1)
          exact .error sameView

end Mirrors

variable {config : Config} (view : View config)

/-! ## Questions -/

namespace Inspection

/-- The inspection of the program seen through a view. -/
def through (i : Inspection) : Inspection := { i with program := i.program.through view }

theorem answer_map {α β : Type} (i : Inspection) (query : Query) (subject : Atom) (f : α → β)
    (value : Except Fault α) :
    i.answer query subject (value.map f) = (i.answer query subject value).map f := by
  unfold answer
  split <;> rfl

theorem isApplication_through (i : Inspection) (p : Procedure) :
    (i.through view).isApplication (p.through view) = i.isApplication p := by
  simp only [isApplication, through, Program.isApplication_through, Procedure.signature_through]
  rfl

theorem body_through (i : Inspection) {p : Procedure}
    (accepted : config.isApplicationClass p.declaringClass = true) :
    (i.through view).body (p.through view) = (i.body p).map (Option.map (List.map view.statement)) := by
  have body : (p.through view).body = p.body.map (List.map view.statement) := view.body accepted
  rw [Inspection.body, Inspection.body, ← i.answer_map, body, Procedure.signature_through]
  rfl

end Inspection

namespace Inspecting

/-- Whether a computation does through a view what another one does on the program itself. -/
abbrev Mirrored {α β : Type} (f : α → β) (x : Inspecting α) (y : Inspecting β) : Prop :=
  Mirrors (Inspection.through view) (fun i => i.program.Settled config) f x y

section Mirrored

variable {view} {α β : Type} {f : α → β} {x : Inspecting α} {y : Inspecting β}

theorem Mirrored.attempt (mirrored : Mirrored view f x y) {i : Inspection}
    (settled : i.program.Settled config) :
    y.attempt (i.through view) = ((x.attempt i).1.map f, (x.attempt i).2.through view) ∧
      (x.attempt i).2.program.Settled config := by
  cases result : x i with
  | ok a j =>
      obtain ⟨seen, settledNow⟩ := mirrored.of_ok settled result
      rw [attempt_of_ok result, attempt_of_ok seen]
      exact ⟨rfl, settledNow⟩
  | error fault j =>
      obtain ⟨seen, settledNow⟩ := mirrored.of_error settled result
      rw [attempt_of_error result, attempt_of_error seen]
      exact ⟨rfl, settledNow⟩

theorem Mirrored.of_attempt (same : ∀ i : Inspection, i.program.Settled config →
      y.attempt (i.through view) = ((x.attempt i).1.map f, (x.attempt i).2.through view) ∧
        (x.attempt i).2.program.Settled config) : Mirrored view f x y := by
  intro i settled
  obtain ⟨seen, settledNow⟩ := same i settled
  unfold Inspecting.attempt at seen settledNow
  cases result : x i with
  | ok a j =>
      simp only [result] at seen settledNow
      cases resultSeen : y (i.through view) with
      | ok b k =>
          simp only [resultSeen, Except.map, Prod.mk.injEq, Except.ok.injEq] at seen
          exact ⟨by rw [seen.1, seen.2], settledNow⟩
      | error fault k => simp [resultSeen, Except.map] at seen
  | error fault j =>
      simp only [result] at seen settledNow
      cases resultSeen : y (i.through view) with
      | ok b k => simp [resultSeen, Except.map] at seen
      | error fault' k =>
          simp only [resultSeen, Except.map, Prod.mk.injEq, Except.error.injEq] at seen
          exact ⟨by rw [seen.1, seen.2], settledNow⟩

theorem mirrored_ask {question : Inspection → Except Fault α} {questionView : Inspection → Except Fault β}
    (same : ∀ i : Inspection, i.program.Settled config →
      questionView (i.through view) = (question i).map f) :
    Mirrored view f (ask question) (ask questionView) := by
  refine .of_attempt fun i settled => ?_
  rw [attempt_ask, attempt_ask]
  exact ⟨by rw [same i settled], settled⟩

/-- A question with the same answer through a view. -/
theorem mirrored_ask_same {question questionView : Inspection → Except Fault α}
    (same : ∀ i : Inspection, i.program.Settled config →
      questionView (i.through view) = question i) :
    Mirrored view id (ask question) (ask questionView) :=
  mirrored_ask fun i settled => by
    rw [same i settled]
    cases question i <;> rfl

theorem mirrored_debug (channel : LogChannel) (message : Text) :
    Mirrored view id (debug channel message) (debug channel message) :=
  .modify (fun _ => rfl) fun _ settled => settled

theorem mirrored_info (channel : LogChannel) (message : Text) :
    Mirrored view id (info channel message) (info channel message) :=
  .modify (fun _ => rfl) fun _ settled => settled

theorem mirrored_warning (channel : LogChannel) (message : Text) :
    Mirrored view id (warning channel message) (warning channel message) :=
  .modify (fun _ => rfl) fun _ settled => settled

theorem mirrored_record (phase : Text) (failure : Failure) :
    Mirrored view id (record phase failure) (record phase failure) :=
  .modify (fun _ => rfl) fun _ settled => settled

theorem mirrored_set {i : Inspection} (settled : i.program.Settled config) :
    Mirrored view id (set i) (set (i.through view)) :=
  .set settled

end Mirrored

section Questions

variable {view}

/-- Whether a question fails does not depend on bodies. -/
theorem mirrored_answer (query : Query) (subject : Atom) :
    Mirrored view id (ask fun i => i.answer query subject (.ok ()))
      (ask fun i => i.answer query subject (.ok ())) :=
  mirrored_ask_same fun _ _ => rfl

theorem mirrored_requireNames : Mirrored view id requireNames requireNames :=
  mirrored_ask_same fun i _ => i.program.requireNames_through view

theorem mirrored_isApplication (p : Procedure) :
    Mirrored view id (ask (·.isApplication p)) (ask (·.isApplication (p.through view))) :=
  mirrored_ask_same fun i _ => i.isApplication_through view p

theorem mirrored_body {p : Procedure}
    (accepted : config.isApplicationClass p.declaringClass = true) :
    Mirrored view (Option.map (List.map view.statement)) (ask (·.body p))
      (ask (·.body (p.through view))) :=
  mirrored_ask fun i _ => i.body_through view accepted

theorem mirrored_declared (signature : Text) :
    Mirrored view (·.through view) (declared signature) (declared signature) := by
  refine .of_attempt fun i settled => ?_
  rw [attempt_declared, attempt_declared]
  simp only [Inspection.through, Program.procedure_through]
  cases found : i.program.procedure signature with
  | error fault => exact ⟨rfl, settled⟩
  | ok result =>
      obtain ⟨p, program⟩ := result
      refine ⟨?_, ?_⟩
      · simp only [Except.map, learned, Program.through, OrderedMap.contains_mapValues]
        split <;> rfl
      · rw [(learned_fields i signature program).1]
        exact settled.alike (Program.alike_of_procedure found)

theorem mirrored_procedure (name : Json) :
    Mirrored view (·.through view) (procedure name) (procedure name) := by
  rw [procedure_eq]
  refine (Mirrors.ofExcept _).bind fun key _ => ?_
  refine (mirrored_answer .procedure key).bind fun _ _ => ?_
  exact (Mirrors.ofExcept _).bind fun _ _ => (Mirrors.ofExcept _).bind fun _ _ =>
    mirrored_declared _

theorem mirrored_depthMap {p : Procedure}
    (accepted : config.isApplicationClass p.declaringClass = true) :
    Mirrored view id (depthMap p) (depthMap (p.through view)) := by
  refine Mirrors.seeing fun i settled => ?_
  have failure : (i.through view).failure? .depths (.text (p.through view).signature) =
      i.failure? .depths (.text p.signature) := by
    rw [Procedure.signature_through]
    rfl
  simp only [failure]
  cases i.failure? .depths (.text p.signature) with
  | some fault => exact .throw fault
  | none =>
      have looked := i.program.depthMap_through view accepted
      simp only [Inspection.through, looked]
      refine Mirrors.bind (f := id) ?_ fun _ _ => .pure _
      exact Mirrors.set (settled.alike (i.program.alike_depthMap p))

theorem mirrored_entryPoint (c : ClassDecl) :
    Mirrored view (Option.map (·.through view)) (entryPoint c) (entryPoint (c.through view)) := by
  rw [entryPoint_eq, entryPoint_eq]
  refine (mirrored_ask (f := (·.through view)) fun i settled => ?_).bind fun outcome _ => ?_
  · simp only [Inspection.through, settled.entrySearch, ClassDecl.name_through]
    exact i.answer_map _ _ _ _
  · cases outcome with
    | found p => exact .pure (some p)
    | missing => exact .pure none
    | undeclared signature => exact (mirrored_procedure _).bind fun p _ => .pure (some p)

end Questions

end Inspecting

/-! ## Dispatch -/

namespace Dispatch

open Inspecting

variable {view}

theorem mirrored_isRunnable (c : ClassDecl) :
    Mirrored view id (isRunnable c) (isRunnable (c.through view)) := by
  have runnable (i : Inspection) (settled : i.program.Settled config) :
      (i.through view).implementsRunnable (c.through view) = i.implementsRunnable c := by
    simp only [Inspection.implementsRunnable, Inspection.through, settled.implementsRunnable]
    rfl
  have thread (i : Inspection) (settled : i.program.Settled config) :
      (i.through view).isThreadSubclass (c.through view) = i.isThreadSubclass c := by
    simp only [Inspection.isThreadSubclass, Inspection.through, settled.isThreadSubclass]
    rfl
  refine (mirrored_ask_same runnable).bind fun answer _ => ?_
  cases answer with
  | true => exact .pure true
  | false => exact mirrored_ask_same thread

theorem mirrored_entryOf (c : ClassDecl) :
    Mirrored view (Option.map (Option.map (·.through view))) (entryOf c)
      (entryOf (c.through view)) := by
  refine (mirrored_isRunnable c).bind fun answer _ => ?_
  cases answer with
  | true => exact (mirrored_entryPoint c).bind fun entry _ => .pure (some entry)
  | false => exact .pure none

theorem classEntry_through {i : Inspection} (settled : i.program.Settled config) (c : ClassDecl) :
    classEntry config (c.through view) (i.through view) =
      ((classEntry config c i).1.map (·.through view), (classEntry config c i).2.through view) := by
  obtain ⟨seen, -⟩ := (mirrored_entryOf c).attempt settled
  unfold classEntry
  rw [seen]
  generalize (entryOf c).attempt i = result
  obtain ⟨outcome, j⟩ := result
  cases outcome with
  | error fault => rfl
  | ok entry =>
      cases entry with
      | none => rfl
      | some entry => cases entry <;> rfl

theorem entriesOf_through {i : Inspection} (settled : i.program.Settled config)
    (classes : List ClassDecl) :
    entriesOf config (classes.map (·.through view)) (i.through view) =
      ((entriesOf config classes i).1.map (·.through view),
        (entriesOf config classes i).2.through view) := by
  induction classes generalizing i with
  | nil => rfl
  | cons c rest ih =>
      have settledNow := settled.alike (alike_classEntry config c i).program
      simp only [List.map_cons, entriesOf, ClassDecl.isInterface_through]
      by_cases isInterface : c.isInterface
      · simp only [isInterface, if_true, ih settled]
      · simp only [isInterface, classEntry_through settled, ih settledNow]
        cases (classEntry config c i).1 <;> rfl

end Dispatch

namespace DispatchRule

open Inspecting

/-- The verdict with its targets seen through a view. -/
def Verdict.through : Verdict → Verdict
  | .pass => .pass
  | .targets procedures => .targets (procedures.map (·.through view))
  | .unclear failure => .unclear failure

/-- The context with its entries seen through a view. -/
def Context.through (context : Context) : Context :=
  { context with entries := context.entries.map (·.through view) }

variable {view}

theorem unclearTask_through (caller : Procedure) (s : Statement) (message : Text) :
    unclearTask (caller.through view) (view.statement s) message =
      (unclearTask caller s message).through view := by
  simp [unclearTask, Verdict.through, view.index]

theorem mirrored_classInfo (name : Json) :
    Mirrored view (Option.map (·.through view)) (ask (·.classInfo name)) (ask (·.classInfo name)) :=
  mirrored_ask fun i _ => by
    unfold Inspection.classInfo
    cases name.asKey with
    | error fault => rfl
    | ok key =>
        have failure : (i.through view).failure? .classInfo key = i.failure? .classInfo key := rfl
        simp only [bind, Except.bind, failure]
        cases i.failure? .classInfo key with
        | some fault => rfl
        | none => exact congrArg Except.ok (i.program.class?_through view key)

theorem mirrored_submitted (context : Context) (caller : Procedure) (s : Statement) :
    Mirrored view (Verdict.through view) (submitted context caller s)
      (submitted (context.through view) (caller.through view) (view.statement s)) := by
  unfold submitted
  rw [view.firstArgType]
  cases s.firstArgType with
  | none => exact .returns (unclearTask_through _ _ _)
  | some type =>
      refine (mirrored_classInfo type).bind fun found _ => ?_
      cases found with
      | none => exact .returns (unclearTask_through _ _ _)
      | some c =>
          refine .ite (.returns (unclearTask_through _ _ _)) ?_
          refine (mirrored_entryPoint c).bind fun entry _ => ?_
          cases entry with
          | none => exact .returns (unclearTask_through _ _ _)
          | some p => exact .pure (Verdict.targets [p])

theorem mirrored_judge (rule : DispatchRule) (context : Context) (g : CallGraph)
    (caller : Procedure) (site : Site) (s : Statement) :
    Mirrored view (Verdict.through view) (rule.judge context g caller site s)
      (rule.judge (context.through view) (g.through view) (caller.through view) site
        (view.statement s)) := by
  unfold judge
  rw [view.invokedMethod]
  cases s.invokedMethod with
  | none => exact .pure Verdict.pass
  | some method =>
      cases rule with
      | submit => exact .ite (mirrored_submitted context caller s) (.pure Verdict.pass)
      | start =>
          refine .ite (.returns ?_) (.pure Verdict.pass)
          simp [Verdict.through, Context.through, List.filter_map, Function.comp_def]
      | fallback =>
          simp only [CallGraph.edgesOutOf_through, List.isEmpty_map]
          refine .ite ?_ (.pure Verdict.pass)
          exact (mirrored_procedure method).bind fun p _ => .pure (Verdict.targets [p])

end DispatchRule

/-! ## Augmenting -/

namespace Augmentation

/-- The augmentation of the program seen through a view. -/
def through (a : Augmentation) : Augmentation :=
  { inspection := a.inspection.through view
    graph := a.graph.through view
    visited := a.visited
    added := a.added.map (·.through view) }

variable {view}

/-- The augmentation after a rule has added an edge. -/
def joined (rule : DispatchRule) (a : Augmentation) (e : CallEdge) : Augmentation :=
  { a with
    graph := a.graph.insertEdge e
    added := a.added ++ [e]
    inspection := a.inspection.debug .dispatch
      (s!"Added {rule.name} edge from " ++ e.source.signature ++ " to " ++ e.target.signature) }

theorem joined_through (rule : DispatchRule) (a : Augmentation) (e : CallEdge) :
    joined rule (a.through view) (e.through view) = (joined rule a e).through view := by
  simp only [joined, through, CallGraph.insertEdge_through, List.map_append, List.map_cons, List.map_nil]
  simp only [CallEdge.through, Procedure.signature_through]
  rfl

theorem link_of_new {rule : DispatchRule} {caller : Procedure} {site : Site} {s : Statement}
    {a : Augmentation} {target : Procedure}
    (isNew : a.graph.hasEdge site target.signature = false) (rest : List Procedure) :
    let next := link rule caller site s (joined rule a (rule.edge caller site s target)) rest
    link rule caller site s a (target :: rest) =
      (next.1, rule.edge caller site s target :: next.2) := by
  rw [link, isNew]
  rfl

theorem link_through (rule : DispatchRule) (caller : Procedure) (site : Site) (s : Statement)
    (a : Augmentation) (targets : List Procedure) :
    link rule (caller.through view) site (view.statement s) (a.through view)
        (targets.map (·.through view)) =
      ((link rule caller site s a targets).1.through view,
        (link rule caller site s a targets).2.map (·.through view)) := by
  induction targets generalizing a with
  | nil => rfl
  | cons target rest ih =>
      have sameEdges : (a.through view).graph.hasEdge site (target.through view).signature =
          a.graph.hasEdge site target.signature := by
        rw [Procedure.signature_through]
        exact a.graph.hasEdge_through view site _
      cases linked : a.graph.hasEdge site target.signature with
      | true =>
          rw [List.map_cons, link, link, sameEdges, linked]
          exact ih a
      | false =>
          have edge : rule.edge (caller.through view) site (view.statement s) (target.through view) =
              (rule.edge caller site s target).through view := by
            simp [DispatchRule.edge, CallEdge.through, view.index]
          rw [List.map_cons, link_of_new (sameEdges.trans linked), link_of_new linked, edge,
            joined_through, ih]
          rfl

theorem applyRules_through (context : DispatchRule.Context) (caller : Procedure) (site : Site)
    (s : Statement) {a : Augmentation} (settled : a.inspection.program.Settled config)
    (rules : List DispatchRule) :
    applyRules (context.through view) (caller.through view) site (view.statement s) (a.through view)
        rules =
      ((applyRules context caller site s a rules).1.through view,
        (applyRules context caller site s a rules).2.map (·.through view)) := by
  induction rules generalizing a with
  | nil => rfl
  | cons rule rest ih =>
      obtain ⟨seen, settledNow⟩ :=
        (DispatchRule.mirrored_judge rule context a.graph caller site s).attempt settled
      have judged : (rule.judge (context.through view) (a.through view).graph (caller.through view) site
          (view.statement s)).attempt (a.through view).inspection = _ := seen
      rw [applyRules, applyRules, judged]
      generalize (rule.judge context a.graph caller site s).attempt a.inspection = result
        at settledNow
      obtain ⟨outcome, i⟩ := result
      cases outcome with
      | error fault =>
          simp only [Except.map, Procedure.signature_through, view.index]
          rfl
      | ok verdict =>
          cases verdict with
          | pass => exact ih (a := { a with inspection := i }) settledNow
          | targets targets => exact link_through rule caller site s { a with inspection := i } targets
          | unclear failure => rfl

theorem isApplication_through (a : Augmentation) (p : Procedure) :
    (a.through view).isApplication (p.through view) =
      ((a.isApplication p).1, (a.isApplication p).2.through view) := by
  have same : (a.through view).inspection.isApplication (p.through view) =
      a.inspection.isApplication p := a.inspection.isApplication_through view p
  unfold isApplication
  rw [same, Procedure.signature_through]
  cases a.inspection.isApplication p <;> rfl

theorem descend_through (a : Augmentation) (targets : List Procedure) (edges : List CallEdge) :
    (a.through view).descend (targets.map (·.through view)) (edges.map (·.through view)) =
      ((a.descend targets edges).1.through view,
        (a.descend targets edges).2.map (·.through view)) := by
  induction edges generalizing a targets with
  | nil => rfl
  | cons e rest ih =>
      have visited : (a.through view).visited.contains (e.through view).target.signature =
          a.visited.contains e.target.signature :=
        congrArg a.visited.contains (Procedure.signature_through view e.target)
      have asked : (a.through view).isApplication (e.through view).target =
          ((a.isApplication e.target).1, (a.isApplication e.target).2.through view) :=
        a.isApplication_through e.target
      rw [List.map_cons, descend, descend, visited, asked]
      cases a.visited.contains e.target.signature with
      | true => exact ih a targets
      | false =>
          simp only [Bool.false_eq_true, if_false]
          cases (a.isApplication e.target).1 with
          | true => exact ih _ (e.target :: targets)
          | false => exact ih _ targets

theorem accepted_of_isApplication {a : Augmentation} (settled : a.inspection.program.Settled config)
    {p : Procedure} (answered : (a.isApplication p).1 = true) :
    config.isApplicationClass p.declaringClass = true := by
  unfold isApplication at answered
  split at answered
  · rename_i answer found
    have isTrue : answer = true := answered
    exact settled.configured ▸ Inspection.accepted_of_isApplication (isTrue ▸ found)
  · cases answered

/-- A walk goes on to application code only. -/
theorem accepted_descend {a : Augmentation} (settled : a.inspection.program.Settled config)
    {targets : List Procedure} (edges : List CallEdge)
    (accepted : ∀ p ∈ targets, config.isApplicationClass p.declaringClass = true) :
    ∀ p ∈ (a.descend targets edges).2, config.isApplicationClass p.declaringClass = true := by
  induction edges generalizing a targets with
  | nil => exact accepted
  | cons e rest ih =>
      rw [descend]
      split
      · exact ih settled accepted
      · have next : ∀ p ∈ (if (a.isApplication e.target).1 then e.target :: targets else targets),
            config.isApplicationClass p.declaringClass = true := by
          by_cases answered : (a.isApplication e.target).1 = true
          · rw [if_pos answered]
            exact List.forall_mem_cons.mpr ⟨accepted_of_isApplication settled answered, accepted⟩
          · rw [if_neg answered]
            exact accepted
        exact ih (settled.alike (alike_isApplication a e.target).program) next

theorem walkBody_through (view : View config) (rules : List DispatchRule)
    (context : DispatchRule.Context) (p : Procedure) {a : Augmentation} (settled : a.inspection.program.Settled config) (targets : List Procedure)
    (body : List (Site × Statement)) :
    walkBody rules (context.through view) (p.through view) (a.through view)
        (targets.map (·.through view)) (body.map view.placed) =
      ((walkBody rules context p a targets body).1.through view,
        (walkBody rules context p a targets body).2.map (·.through view)) := by
  induction body generalizing a targets with
  | nil => rfl
  | cons placed rest ih =>
      obtain ⟨site, s⟩ := placed
      rw [List.map_cons, View.placed, walkBody, walkBody, view.isCall,
        applyRules_through context p site s settled rules]
      by_cases isCall : s.isCall
      · simp only [isCall, if_true, descend_through]
        refine ih (settled.alike (Inspection.Alike.program ?_)) _
        exact (alike_applyRules rules context p site s a).trans (alike_descend _ _ _)
      · simp only [isCall]
        exact ih settled targets

theorem accepted_walkBody (rules : List DispatchRule) (context : DispatchRule.Context)
    (p : Procedure) {a : Augmentation} (settled : a.inspection.program.Settled config)
    {targets : List Procedure} (body : List (Site × Statement))
    (accepted : ∀ p ∈ targets, config.isApplicationClass p.declaringClass = true) :
    ∀ q ∈ (walkBody rules context p a targets body).2,
      config.isApplicationClass q.declaringClass = true := by
  induction body generalizing a targets with
  | nil => exact accepted
  | cons placed rest ih =>
      obtain ⟨site, s⟩ := placed
      rw [walkBody]
      split
      · have settledRuled := settled.alike (alike_applyRules rules context p site s a).program
        exact ih (settledRuled.alike (alike_descend _ _ _).program)
          (accepted_descend settledRuled _ accepted)
      · exact ih settled accepted

theorem accepted_visit (rules : List DispatchRule) (context : DispatchRule.Context) (p : Procedure)
    {a : Augmentation} (settled : a.inspection.program.Settled config) :
    ∀ q ∈ (visit rules context p a).2, config.isApplicationClass q.declaringClass = true := by
  have none (q : Procedure) (listed : q ∈ []) : config.isApplicationClass q.declaringClass = true := by
    cases listed
  unfold visit
  dsimp only
  split
  · exact none
  · exact none
  · exact accepted_walkBody rules context p
      (a := { a with visited := p.signature :: a.visited }) settled _ none

theorem visit_through (rules : List DispatchRule) (context : DispatchRule.Context) {p : Procedure}
    (accepted : config.isApplicationClass p.declaringClass = true) {a : Augmentation}
    (settled : a.inspection.program.Settled config) :
    visit rules (context.through view) (p.through view) (a.through view) =
      ((visit rules context p a).1.through view, (visit rules context p a).2.map (·.through view)) := by
  have body : (a.through view).inspection.body (p.through view) = _ :=
    a.inspection.body_through view accepted
  unfold visit
  dsimp only
  rw [body, Procedure.signature_through]
  cases a.inspection.body p with
  | error fault => rfl
  | ok found =>
      cases found with
      | none => rfl
      | some statements =>
          have walked := walkBody_through view rules context p
            (a := { a with visited := p.signature :: a.visited }) settled [] (p.placed statements)
          rwa [← Procedure.placed_through] at walked

theorem walk_through (view : View config) (rules : List DispatchRule)
    (context : DispatchRule.Context) (declared : List Text) {worklist : List Procedure} {a : Augmentation}
    (settled : a.inspection.program.Settled config)
    (accepted : ∀ p ∈ worklist, config.isApplicationClass p.declaringClass = true) :
    walk rules (context.through view) declared (worklist.map (·.through view)) (a.through view) =
      (walk rules context declared worklist a).through view := by
  fun_induction walk rules context declared worklist a with
  | case1 a => rw [List.map_nil, walk]
  | case2 p worklist a wasVisited ih =>
      have wasVisitedThere : p.signature ∈ (a.through view).visited := wasVisited
      rw [List.map_cons, walk, Procedure.signature_through, if_pos wasVisitedThere]
      exact ih settled (List.forall_mem_cons.mp accepted).2
  | case3 p worklist a isNew next isDeclared ih =>
      have isNewThere : p.signature ∉ (a.through view).visited := isNew
      obtain ⟨first, others⟩ := List.forall_mem_cons.mp accepted
      rw [List.map_cons, walk, Procedure.signature_through, if_neg isNewThere,
        visit_through rules context first settled]
      simp only [isDeclared, if_true, ← List.map_append]
      refine ih (settled.alike (alike_visit rules context p a).program) ?_
      exact List.forall_mem_append.mpr ⟨accepted_visit rules context p settled, others⟩
  | case4 p worklist a isNew next isUndeclared ih =>
      have isNewThere : p.signature ∉ (a.through view).visited := isNew
      obtain ⟨first, others⟩ := List.forall_mem_cons.mp accepted
      rw [List.map_cons, walk, Procedure.signature_through, if_neg isNewThere,
        visit_through rules context first settled]
      simp only [isUndeclared]
      exact ih (settled.alike (alike_visit rules context p a).program) others

theorem extend_through (rules : List DispatchRule) (context : DispatchRule.Context)
    (declared : List Text) {a : Augmentation} (settled : a.inspection.program.Settled config)
    {roots : List Procedure}
    (accepted : ∀ p ∈ roots, config.isApplicationClass p.declaringClass = true) :
    extend rules (context.through view) declared (a.through view) (roots.map (·.through view)) =
      (extend rules context declared a roots).through view := by
  induction roots generalizing a with
  | nil => rfl
  | cons root rest ih =>
      obtain ⟨first, others⟩ := List.forall_mem_cons.mp accepted
      have alone : ∀ p ∈ [root], config.isApplicationClass p.declaringClass = true :=
        List.forall_mem_singleton.mpr first
      have walked := walk_through view rules context declared settled alone
      rw [List.map_singleton] at walked
      simp only [extend, List.map_cons, List.foldl_cons, Procedure.signature_through] at ih ⊢
      rw [walked]
      by_cases visited : a.visited.contains root.signature
      · have visitedThere : (a.through view).visited.contains root.signature := visited
        rw [if_pos visited, if_pos visitedThere]
        exact ih settled others
      · have isNewThere : ¬ (a.through view).visited.contains root.signature := visited
        rw [if_neg visited, if_neg isNewThere]
        exact ih (settled.alike (alike_walk rules context declared [root] a).program) others

theorem declaredSignatures_through (program : Program) :
    declaredSignatures (program.through view) = declaredSignatures program := by
  simp [declaredSignatures, Program.through, ClassDecl.through, List.flatMap_map, Function.comp_def]

section Run

variable {a : Augmentation} (settled : a.inspection.program.Settled config)

include settled

theorem runnableEntries_through :
    Dispatch.runnableEntries config (a.through view).inspection =
      ((Dispatch.runnableEntries config a.inspection).1.map (·.through view),
        (Dispatch.runnableEntries config a.inspection).2.through view) := by
  have classes := a.inspection.program.applicationClasses_through view
  unfold Dispatch.runnableEntries
  simp only [through, Inspection.through, classes]
  exact Dispatch.entriesOf_through settled _

theorem begun_through : begun config (a.through view) = (begun config a).through view := by
  unfold begun
  rw [runnableEntries_through settled]
  simp only [List.length_map]
  rfl

theorem contextOf_through :
    contextOf config (a.through view) = (contextOf config a).through view := by
  unfold contextOf
  rw [runnableEntries_through settled]
  rfl

theorem run_through (rules : List DispatchRule) :
    run rules config (a.through view) = (run rules config a).through view := by
  have settledBegun := settled.alike (alike_begun config a).program
  have walks : walked rules config (a.through view) = (walked rules config a).through view := by
    have roots : ((begun config a).through view).inspection.program.applicationProcedures =
        (begun config a).inspection.program.applicationProcedures.map (·.through view) :=
      (begun config a).inspection.program.applicationProcedures_through view
    have declared : declaredSignatures ((begun config a).through view).inspection.program =
        declaredSignatures (begun config a).inspection.program := declaredSignatures_through _
    unfold walked
    simp only [begun_through settled, contextOf_through settled, roots, declared]
    exact extend_through rules _ _ settledBegun settledBegun.accepted
  have counted (a : Augmentation) : (a.through view).added.length = a.added.length :=
    List.length_map _
  have tells (a : Augmentation) (message : Text) :
      (a.through view).inspect (·.info .dispatch message) =
        (a.inspect (·.info .dispatch message)).through view := rfl
  rw [run_eq, run_eq, walks, counted, tells]

end Run

end Augmentation

end CallWeight
