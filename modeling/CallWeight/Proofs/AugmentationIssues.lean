import CallWeight.Proofs.DispatchEdges

/-! # The issues of an augmentation, word for word

If no question fails, augmenting a graph writes down two kinds of issues: classes that cannot be
classified, in the order of the program, and submissions of tasks of which it cannot be told what they
run, in the order of the walk. Both are read off the program with their whole text, so the walk only
decides about the order of the second kind.
-/

namespace CallWeight

/-- The issues that the answer of a rule about a call site gives rise to. -/
def DispatchRule.verdictIssues (caller : Procedure) (s : Statement) :
    Except Fault DispatchRule.Verdict → List Issue
  | .ok (.unclear failure) => [.ofFailure "augment" failure]
  | .ok _ => []
  | .error fault =>
      [.ofFailure "augment" {
        kind := .classificationFailure
        message := "call site could not be classified"
        procedure := some caller.signature
        statement := s.index
        cause := some fault.toCause }]

namespace Program

/-- The issue of a class that cannot be classified. -/
def classIssue? (program : Program) (c : ClassDecl) : Option Issue :=
  if c.isInterface then none
  else
    match program.threadEntry c with
    | .ok _ => none
    | .error fault => some (c.unclassified fault)

/-- What the submission rule says about a call that submits a task. -/
def submission (program : Program) (caller : Procedure) (s : Statement) :
    Except Fault DispatchRule.Verdict :=
  match s.firstArgType with
  | none => .ok (DispatchRule.unclearTask caller s "task submission without a typed argument")
  | some type => do
      match program.class? (← type.asKey) with
      | none => return DispatchRule.submitted.notConcrete caller s type
      | some c =>
          if c.isInterface then return DispatchRule.submitted.notConcrete caller s type
          match ← program.entryPoint c with
          | some p => return .targets [p]
          | none =>
              return DispatchRule.unclearTask caller s ("submitted task type " ++ type.display
                ++ " has no '" ++ program.config.entrySubsignature.display ++ "'")

/-- The issue of a call site, if there is one. -/
def siteIssues (program : Program) (caller : Procedure) (s : Statement) : List Issue :=
  if s.invokedMethod.any (DispatchRule.isAmong program.config.submitSignatures) then
    DispatchRule.verdictIssues caller s (program.submission caller s)
  else []

/-- The issues of the call sites of a procedure. -/
def unclearIssues (program : Program) (p : Procedure) : List Issue :=
  (p.placed p.statements).flatMap fun placed => program.siteIssues p placed.2

end Program

namespace Program

variable {first second : Program}

theorem Alike.siteIssues (alike : first.Alike second) (caller : Procedure) (s : Statement) :
    second.siteIssues caller s = first.siteIssues caller s := by
  simp only [Program.siteIssues, submission, alike.config, alike.class?, alike.entryPoint]

end Program

/-! ## Classes -/

namespace Dispatch

theorem issues_classEntry_eq (config : Config) {start i : Inspection} (alike : start.Alike i)
    (reliable : i.Reliable) {c : ClassDecl} (isConcrete : c.isInterface = false) :
    (classEntry config c i).2.issues = i.issues ++ (start.program.classIssue? c).toList := by
  have answered := attempt_entryOf reliable.noFailures c
  rw [alike.program.threadEntry] at answered
  simp only [Program.classIssue?, isConcrete, Bool.false_eq_true, if_false, ← answered]
  cases answer : ((entryOf c).attempt i).1 with
  | ok entry => simp [(classEntry_of_ok answer).2, Except.map]
  | error fault => simp [(classEntry_of_error answer).2, Except.map]

theorem issues_entriesOf_eq (config : Config) {start i : Inspection} (alike : start.Alike i)
    (reliable : i.Reliable) {classes : List ClassDecl}
    (areClasses : classes ⊆ i.program.classes.values) :
    (entriesOf config classes i).2.issues =
      i.issues ++ classes.filterMap start.program.classIssue? := by
  induction classes generalizing i with
  | nil => simp [entriesOf]
  | cons c rest ih =>
      obtain ⟨isClass, restAre⟩ := List.cons_subset.mp areClasses
      unfold entriesOf
      by_cases isInterface : c.isInterface
      · have noIssue : start.program.classIssue? c = none := by
          simp [Program.classIssue?, isInterface]
        rw [if_pos isInterface, ih alike reliable restAre, List.filterMap_cons_none noIssue]
      · have later := (classEntry_spec config reliable.coherent isClass).1
        have others := ih (alike.trans (alike_classEntry config c i)) (reliable.later later)
          (later.program.classes ▸ restAre)
        rw [if_neg isInterface]
        dsimp only
        rw [others, issues_classEntry_eq config alike reliable (by simpa using isInterface)]
        cases found : start.program.classIssue? c with
        | none => simp [List.filterMap_cons_none found]
        | some issue => simp [List.filterMap_cons_some found]

end Dispatch

/-! ## One call site -/

namespace DispatchRule

theorem attempt_submitted {i : Inspection} (reliable : i.Reliable) {context : Context}
    (configured : context.config = i.program.config) (caller : Procedure) (s : Statement) :
    ((submitted context caller s).attempt i).1 = i.program.submission caller s := by
  unfold submitted Program.submission
  cases s.firstArgType with
  | none => rfl
  | some type =>
      dsimp only
      rw [Inspecting.attempt_bind, Inspecting.attempt_ask]
      cases type with
      | arr items => rfl
      | obj fields => rfl
      | atom name =>
          rw [reliable.classInfo]
          simp only [Json.asKey, bind, Except.bind]
          cases i.program.class? name with
          | none => rfl
          | some c =>
              simp only
              cases c.isInterface with
              | true => rfl
              | false =>
                  simp only [Bool.false_eq_true, if_false,
                    ← Inspecting.attempt_entryPoint reliable.noFailures]
                  have bound := Inspecting.attempt_bind (Inspecting.entryPoint c) (fun entry =>
                    match entry with
                    | some p => (pure (.targets [p]) : Inspecting Verdict)
                    | none => pure (unclearTask caller s ("submitted task type "
                        ++ (Json.atom name).display ++ " has no '"
                        ++ context.config.entrySubsignature.display ++ "'"))) i
                  refine (congrArg Prod.fst bound).trans ?_
                  generalize (Inspecting.entryPoint c).attempt i = result
                  obtain ⟨answer, j⟩ := result
                  cases answer with
                  | error fault => rfl
                  | ok entry =>
                      cases entry with
                      | none =>
                          rw [configured]
                          rfl
                      | some q => rfl

/-- A submission is never passed on to the next rule. -/
theorem submission_ne_pass (program : Program) (caller : Procedure) (s : Statement) :
    program.submission caller s ≠ .ok .pass := by
  unfold Program.submission
  cases s.firstArgType with
  | none => simp [unclearTask]
  | some type =>
      dsimp only
      cases type.asKey with
      | error fault => simp [bind, Except.bind]
      | ok key =>
          simp only [bind, Except.bind]
          cases program.class? key with
          | none => simp [submitted.notConcrete, unclearTask, pure, Except.pure]
          | some c =>
              simp only
              split
              · simp [submitted.notConcrete, unclearTask, pure, Except.pure]
              · cases program.entryPoint c with
                | error fault => simp
                | ok entry =>
                    cases entry with
                    | none => simp [unclearTask, pure, Except.pure]
                    | some p => simp [pure, Except.pure]

end DispatchRule

namespace Augmentation

theorem issues_link (rule : DispatchRule) (caller : Procedure) (site : Site) (s : Statement)
    (a : Augmentation) (targets : List Procedure) :
    (link rule caller site s a targets).1.inspection.issues = a.inspection.issues := by
  obtain ⟨recorded, issues, noPlaces⟩ := (adds_link rule caller site s a targets).issues
  rw [issues, List.map_eq_nil_iff.mp noPlaces, List.append_nil]

theorem subset_link (rule : DispatchRule) (caller : Procedure) (site : Site) (s : Statement)
    (a : Augmentation) (targets : List Procedure) :
    (link rule caller site s a targets).2 ⊆ (link rule caller site s a targets).1.graph.edges := by
  rw [(adds_link rule caller site s a targets).edges]
  exact List.subset_append_right _ _

theorem subset_applyRules (context : DispatchRule.Context) (caller : Procedure) (site : Site)
    (s : Statement) (a : Augmentation) (rules : List DispatchRule) :
    (applyRules context caller site s a rules).2 ⊆
      (applyRules context caller site s a rules).1.graph.edges := by
  induction rules generalizing a with
  | nil => exact List.nil_subset _
  | cons rule rest ih =>
      unfold applyRules
      split
      · exact ih _
      · exact subset_link rule caller site s _ _
      · exact List.nil_subset _
      · exact List.nil_subset _

section Rule

variable {context : DispatchRule.Context} {caller : Procedure} {site : Site} {s : Statement}
  {a : Augmentation} {rule : DispatchRule} {rest : List DispatchRule}

theorem applyRules_of_pass
    (passes : rule.judge context a.graph caller site s = pure .pass) :
    applyRules context caller site s a (rule :: rest) = applyRules context caller site s a rest := by
  rw [applyRules, passes, Inspecting.attempt_pure]

theorem issues_applyRules_of_ne_pass
    (passesNot : ((rule.judge context a.graph caller site s).attempt a.inspection).1 ≠ .ok .pass) :
    (applyRules context caller site s a (rule :: rest)).1.inspection.issues =
      a.inspection.issues ++ DispatchRule.verdictIssues caller s
        ((rule.judge context a.graph caller site s).attempt a.inspection).1 := by
  have silent := ((rule.steady_judge context a.graph caller site s).quiet a.inspection).2
  rw [applyRules]
  generalize (rule.judge context a.graph caller site s).attempt a.inspection = result
    at passesNot silent ⊢
  obtain ⟨answer, j⟩ := result
  rw [← silent]
  cases answer with
  | error fault => rfl
  | ok verdict =>
      cases verdict with
      | pass => exact absurd rfl passesNot
      | unclear failure => rfl
      | targets targets =>
          refine (issues_link rule caller site s _ targets).trans ?_
          simp [DispatchRule.verdictIssues]

end Rule

section Walk

variable {start i : Inspection} {context : DispatchRule.Context} {a : Augmentation}

theorem Underway.reliable (state : Underway start i a) (reliable : start.Reliable) :
    a.inspection.Reliable :=
  reliable.later state.grown.later

section Invoked

variable (reliable : a.inspection.Reliable) (caller : Procedure) (site : Site) {s : Statement}
  {signature : Text} {parts : Text × Text} (invoked : s.invokedMethod = some (.text signature))
  (splits : Signature.split signature = .ok parts)

include reliable invoked splits

/-- The call names a procedure, so the fallback finds one. -/
theorem issues_fallback (context : DispatchRule.Context) :
    (applyRules context caller site s a [.fallback]).1.inspection.issues = a.inspection.issues := by
  by_cases isBare : (a.graph.edgesOutOf site).isEmpty
  · obtain ⟨p, named⟩ := a.inspection.program.exists_names splits
    have answered := DispatchRule.attempt_fallback reliable context a.graph caller site invoked named
    rw [if_pos isBare] at answered
    refine (issues_applyRules_of_ne_pass ?_).trans ?_
    · simp [answered]
    · simp [answered, DispatchRule.verdictIssues]
  · have passes : DispatchRule.fallback.judge context a.graph caller site s = pure .pass := by
      simp only [DispatchRule.judge, invoked, isBare]
      rfl
    rw [applyRules_of_pass passes]
    rfl

theorem issues_start (context : DispatchRule.Context) :
    (applyRules context caller site s a [.start, .fallback]).1.inspection.issues =
      a.inspection.issues := by
  by_cases starts : DispatchRule.isAmong context.config.threadStartSignatures (.text signature)
  · have judged : DispatchRule.start.judge context a.graph caller site s =
        pure (.targets (context.entries.filter (·.signature ≠ caller.signature))) := by
      simp only [DispatchRule.judge, invoked, starts, if_true]
    refine (issues_applyRules_of_ne_pass ?_).trans ?_
    · simp [judged]
    · simp [judged, DispatchRule.verdictIssues]
  · have passes : DispatchRule.start.judge context a.graph caller site s = pure .pass := by
      simp only [DispatchRule.judge, invoked, starts]
      rfl
    rw [applyRules_of_pass passes, issues_fallback reliable caller site invoked splits]

theorem issues_rules (configured : context.config = a.inspection.program.config) :
    (applyRules context caller site s a DispatchRule.all).1.inspection.issues =
      a.inspection.issues ++ a.inspection.program.siteIssues caller s := by
  unfold Program.siteIssues DispatchRule.all
  rw [invoked, Option.any_some, ← configured]
  by_cases submits : DispatchRule.isAmong context.config.submitSignatures (.text signature)
  · have judged : DispatchRule.submit.judge context a.graph caller site s =
        DispatchRule.submitted context caller s := by
      simp only [DispatchRule.judge, invoked, submits, if_true]
    have answered := DispatchRule.attempt_submitted reliable configured caller s
    rw [← judged] at answered
    rw [if_pos submits, ← answered]
    refine issues_applyRules_of_ne_pass ?_
    rw [answered]
    exact DispatchRule.submission_ne_pass _ caller s
  · have passes : DispatchRule.submit.judge context a.graph caller site s = pure .pass := by
      simp only [DispatchRule.judge, invoked, submits]
      rfl
    rw [if_neg submits, applyRules_of_pass passes,
      issues_start reliable caller site invoked splits, List.append_nil]

end Invoked

variable (configured : context.config = i.program.config) (reliable : start.Reliable)

include configured reliable

theorem issues_applyRules (state : Underway start i a) (caller : Procedure) (site : Site)
    {s : Statement} {signature : Text} {parts : Text × Text}
    (invoked : s.invokedMethod = some (.text signature))
    (splits : Signature.split signature = .ok parts) :
    (applyRules context caller site s a DispatchRule.all).1.inspection.issues =
      a.inspection.issues ++ i.program.siteIssues caller s := by
  rw [← state.alike.program.siteIssues]
  exact issues_rules (state.reliable reliable) caller site invoked splits
    (configured.trans state.alike.program.config.symm)

omit configured in
theorem issues_descend (state : Underway start i a) (targets : List Procedure)
    {edges : List CallEdge} (areEdges : edges ⊆ a.graph.edges) :
    (a.descend targets edges).1.inspection.issues = a.inspection.issues := by
  induction edges generalizing targets with
  | nil => rfl
  | cons e rest ih =>
      obtain ⟨isEdge, restAre⟩ := List.cons_subset.mp areEdges
      unfold descend
      split
      · exact ih targets restAre
      · have known := state.grown.fits.knows e isEdge
        have answered := (state.reliable reliable).isApplication known
        simp only [isApplication, answered]
        exact ih _ restAre

variable (entriesKnown : ∀ p ∈ context.entries, start.program.Knows p)

include entriesKnown

theorem issues_walkBody (state : Underway start i a) {p : Procedure} (targets : List Procedure)
    {body : List (Site × Statement)}
    (sited : ∀ placed ∈ body, ∃ position, placed.1 = p.site position)
    (invoked : ∀ placed ∈ body, placed.2.isCall = true → ∃ signature parts,
      placed.2.invokedMethod = some (.text signature) ∧ Signature.split signature = .ok parts) :
    (walkBody DispatchRule.all context p a targets body).1.inspection.issues =
      a.inspection.issues ++ body.flatMap fun placed => i.program.siteIssues p placed.2 := by
  induction body generalizing a targets with
  | nil => simp [walkBody]
  | cons placed rest ih =>
      obtain ⟨site, s⟩ := placed
      obtain ⟨firstSited, restSited⟩ := List.forall_mem_cons.mp sited
      obtain ⟨firstInvoked, restInvoked⟩ := List.forall_mem_cons.mp invoked
      rw [walkBody, List.flatMap_cons]
      by_cases isCall : s.isCall
      · obtain ⟨signature, parts, isInvoked, splits⟩ := firstInvoked isCall
        have ruled := issues_applyRules configured reliable state p site isInvoked splits
        have areEdges := subset_applyRules context p site s a DispatchRule.all
        have stateRuled : Underway start i (applyRules context p site s a DispatchRule.all).1 :=
          ⟨grown_applyRules reliable.coherent entriesKnown s _ firstSited state.grown,
            state.alike.trans (alike_applyRules _ context p site s a)⟩
        have descended := issues_descend reliable stateRuled targets areEdges
        have stateNext : Underway start i
            ((applyRules context p site s a DispatchRule.all).1.descend targets
              (applyRules context p site s a DispatchRule.all).2).1 :=
          ⟨grown_descend _ _ stateRuled.grown, stateRuled.alike.trans (alike_descend _ _ _)⟩
        rw [if_pos isCall]
        refine (ih stateNext _ restSited restInvoked).trans ?_
        rw [descended, ruled, List.append_assoc]
      · have noIssue : i.program.siteIssues p s = [] := by
          have notInvoked : s.invokedMethod = none := by simpa [Statement.isCall] using isCall
          simp [Program.siteIssues, notInvoked]
        rw [if_neg isCall, ih state targets restSited restInvoked, noIssue, List.nil_append]

theorem issues_visit (state : Underway start i a) {p : Procedure} (sound : SoundBody p.body) :
    (visit DispatchRule.all context p a).1.inspection.issues =
      a.inspection.issues ++ i.program.unclearIssues p := by
  have answered := (state.reliable reliable).body p
  unfold visit
  dsimp only
  rw [answered]
  cases hasBody : p.body with
  | none => simp [Program.unclearIssues, Procedure.statements, hasBody, Procedure.placed, inspect,
      Inspection.debug]
  | some body =>
      have statements : p.statements = body := by simp [Procedure.statements, hasBody]
      simp only [Program.unclearIssues, statements]
      refine issues_walkBody configured reliable entriesKnown
        (a := { a with visited := p.signature :: a.visited }) ⟨state.grown, state.alike⟩ []
        (fun placed isPlaced => Procedure.site_of_placed isPlaced) fun placed isPlaced isCall => ?_
      obtain ⟨method, invoked⟩ := Option.isSome_iff_exists.mp isCall
      obtain ⟨signature, parts, rfl, splits⟩ := (sound.placed hasBody isPlaced).invoked invoked
      exact ⟨signature, parts, invoked, splits⟩

theorem issues_visits (state : Underway start i a) {visits : List Procedure}
    (sound : ∀ p ∈ visits, SoundBody p.body) :
    Underway start i (visits.foldr (fun p a => (visit DispatchRule.all context p a).1) a) ∧
      (visits.foldr (fun p a => (visit DispatchRule.all context p a).1) a).inspection.issues =
        a.inspection.issues ++ visits.reverse.flatMap i.program.unclearIssues := by
  induction visits with
  | nil => exact ⟨state, by simp⟩
  | cons p rest ih =>
      obtain ⟨soundFirst, soundRest⟩ := List.forall_mem_cons.mp sound
      obtain ⟨stateRest, issues⟩ := ih soundRest
      rw [List.foldr_cons]
      refine ⟨⟨?_, ?_⟩, ?_⟩
      · exact grown_visit reliable.coherent entriesKnown _ p stateRest.grown
      · exact stateRest.alike.trans (alike_visit _ context p _)
      · rw [issues_visit configured reliable entriesKnown stateRest soundFirst, issues]
        simp

end Walk

/-- If no question fails, a run writes down the classes that cannot be classified and then the issues
    of the application procedures. -/
theorem issues_run_eq {i : Inspection} {g : CallGraph} (reliable : i.Reliable)
    (fits : g.Fits i.program)
    (sound : ∀ p ∈ i.program.applicationProcedures, SoundBody p.body)
    (distinct : (i.program.applicationProcedures.map (·.signature)).Nodup) :
    ∃ unclear, (ofGraph i g).inspection.issues =
        i.issues ++ i.program.applicationClasses.filterMap i.program.classIssue? ++ unclear ∧
      unclear.Perm (i.program.applicationProcedures.flatMap i.program.unclearIssues) := by
  let config := i.program.config
  obtain ⟨visits, reached, covered, declared⟩ :=
    exists_visits DispatchRule.all config reliable.coherent reliable.named fits
  have later := later_begun config (g := g) reliable.coherent
  have known := (Dispatch.runnableEntries_spec config reliable.coherent).2
  have begins : (begun config (fresh i g)).inspection.issues =
      i.issues ++ i.program.applicationClasses.filterMap i.program.classIssue? :=
    Dispatch.issues_entriesOf_eq config (.refl i) reliable List.filter_sublist.subset
  have soundVisits : ∀ p ∈ visits, SoundBody p.body := by
    intro p isVisit
    cases hasBody : p.body with
    | none => simp [SoundBody]
    | some body => exact hasBody ▸ sound p (declared p isVisit (by simp [hasBody]))
  have state : Underway (begun config (fresh i g)).inspection i (begun config (fresh i g)) :=
    ⟨⟨.refl _, fits.later later.program⟩, alike_begun config (fresh i g)⟩
  have configured : (contextOf config (fresh i g)).config = i.program.config := rfl
  have issues := (issues_visits configured (reliable.later later) known state soundVisits).2
  rw [reached.steps, begins] at issues
  have isRun : (ofGraph i g).inspection.issues = _ := issues_run_walked DispatchRule.all config _
  refine ⟨visits.reverse.flatMap i.program.unclearIssues, isRun.trans issues, ?_⟩
  refine ((List.reverse_perm visits).flatMap_right _).trans ?_
  refine flatMap_perm_of_contributing (·.body.isSome) (.of_map _ reached.distinct)
    (.of_map _ distinct) (fun p hasBody => ?_) fun p noBody => ?_
  · exact ⟨fun isVisit => declared p isVisit hasBody, fun listed => covered listed⟩
  · have statements : p.statements = [] := by
      simp only [Option.isSome_eq_false_iff, Option.isNone_iff_eq_none] at noBody
      simp [Procedure.statements, noBody]
    simp [Program.unclearIssues, statements, Procedure.placed]

end Augmentation

end CallWeight
