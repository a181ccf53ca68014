import CallWeight.Proofs.Answers
import CallWeight.Proofs.Returning

/-! # Which failing questions end an analysis

An analysis asks about bodies, loop depths, classes, entries and signatures under a guard: a question
that fails is written down, and the analysis goes on. Only whether an application procedure is
application code is asked without one, before its calls are counted. So an analysis over a built graph
returns exactly if that question is answered for every application procedure, and otherwise it ends
with the fault of that question.
-/

namespace CallWeight

theorem Config.isApplicationClass_iff {config : Config} {name : Atom} :
    config.isApplicationClass name = true ↔
      ∃ className, name = .text className ∧ config.isLibraryClass className = false := by
  cases name with
  | text className => simp [isApplicationClass]
  | null | bool | int | real => simp [isApplicationClass]

namespace Inspection

theorem Alike.isApplication {i j : Inspection} (alike : i.Alike j) (p : Procedure) :
    j.isApplication p = i.isApplication p := by
  simp only [Inspection.isApplication, answer, alike.failure?, Program.isApplication,
    alike.program.config]

/-- What is found to be application code has a class that is. -/
theorem accepted_of_isApplication {i : Inspection} {p : Procedure}
    (answered : i.isApplication p = .ok true) :
    i.program.config.isApplicationClass p.declaringClass = true := by
  have value := (answer_eq_ok.mp answered).2
  unfold Program.isApplication Procedure.className at value
  cases isName : p.declaringClass with
  | text name =>
      rw [isName] at value
      exact Except.ok.inj value
  | null | bool | int | real =>
      rw [isName] at value
      cases value

/-- Whether the second inspection answers alike and still has every depth map that the first one has. -/
structure Recalls (i j : Inspection) : Prop where
  alike : i.Alike j
  depths : ∀ {signature depths}, i.program.depthCache.get? signature = some depths →
    j.program.depthCache.get? signature = some depths

namespace Recalls

variable {first second third : Inspection}

theorem trans (early : first.Recalls second) (late : second.Recalls third) : first.Recalls third :=
  ⟨early.alike.trans late.alike, fun found => late.depths (early.depths found)⟩

theorem of_eq (failures : second.failures = first.failures)
    (program : second.program = first.program) : first.Recalls second :=
  ⟨.of_eq failures program, fun found => program ▸ found⟩

theorem refl (i : Inspection) : i.Recalls i := .of_eq rfl rfl

end Recalls

end Inspection

/-- The methods of application classes are application code, even if some class is called by no text. -/
theorem Program.accepted_of_listed {program : Program}
    (owned : ∀ c ∈ program.classes.values, c.OwnsMethods) {p : Procedure}
    (listed : p ∈ program.applicationProcedures) :
    program.config.isApplicationClass p.declaringClass = true := by
  obtain ⟨c, isApplication, isMethod⟩ := List.mem_flatMap.mp listed
  obtain ⟨isClass, accepted⟩ := List.mem_filter.mp isApplication
  obtain ⟨name, isName, -⟩ := Config.isApplicationClass_iff.mp accepted
  have owns := owned c isClass p isMethod
  rw [isName] at owns accepted
  exact Atom.eq_of_equals_text owns ▸ accepted

namespace Inspecting

/-- Whether a computation changes no answer, with or without a result. -/
def Neutral {α : Type} (x : Inspecting α) : Prop := ∀ i : Inspection, i.Alike (x.attempt i).2

section Neutral

variable {α β : Type}

theorem Quiet.neutral {x : Inspecting α} (quiet : x.Quiet) : x.Neutral := fun i => (quiet i).1

theorem quiet_get : (get : Inspecting Inspection).Quiet := fun _ => ⟨.refl _, rfl⟩

theorem quiet_foldlM {f : β → α → Inspecting β} (round : ∀ b a, (f b a).Quiet)
    (items : List α) (b : β) : (items.foldlM f b).Quiet := by
  induction items generalizing b with
  | nil => exact (steady_pure b).quiet
  | cons a rest ih => exact (round b a).bind ih

/-- Whether a computation changes no answer and forgets no depth map, with or without a result. -/
def Recalling (x : Inspecting α) : Prop := ∀ i : Inspection, i.Recalls (x.attempt i).2

theorem Recalling.neutral {x : Inspecting α} (recalling : x.Recalling) : x.Neutral :=
  fun i => (recalling i).alike

theorem Recalling.bind {x : Inspecting α} {f : α → Inspecting β} (first : x.Recalling)
    (second : ∀ a, (f a).Recalling) : (x >>= f).Recalling := by
  intro i
  have early := first i
  rw [attempt_bind]
  generalize x.attempt i = result at early
  obtain ⟨outcome, j⟩ := result
  cases outcome with
  | ok a => exact early.trans (second a j)
  | error fault => exact early

theorem recalling_pure (a : α) : (pure a : Inspecting α).Recalling := fun _ => .refl _

theorem recalling_ask (question : Inspection → Except Fault α) : (ask question).Recalling := by
  intro i
  unfold attempt
  cases answer : question i with
  | ok a =>
      rw [ask_of_ok answer]
      exact .refl _
  | error fault =>
      rw [ask_of_error answer]
      exact .refl _

theorem recalling_debug (channel : LogChannel) (message : Text) :
    (debug channel message).Recalling := fun _ => .of_eq rfl rfl

theorem recalling_record (phase : Text) (failure : Failure) : (record phase failure).Recalling :=
  fun _ => .of_eq rfl rfl

theorem recalling_depthMap (p : Procedure) : (depthMap p).Recalling := by
  intro i
  have started : (get : Inspecting Inspection) i = .ok i i := rfl
  unfold depthMap attempt
  rw [bind_of_ok started]
  cases i.failure? .depths (.text p.signature) with
  | some fault => exact .refl _
  | none => exact ⟨⟨rfl, i.program.alike_depthMap p⟩, i.program.depthCache_depthMap p⟩

end Neutral

end Inspecting

open Inspecting

namespace CallGraph

theorem quiet_addTargets (p : Procedure) (site : Site) (s : Statement) (kind : EdgeKind)
    (g : CallGraph) (names : List Json) : (addTargets p site s kind g names).Quiet := by
  induction names generalizing g with
  | nil => exact (steady_pure g).quiet
  | cons name rest ih => exact (steady_procedure name).quiet.bind fun target => ih _

theorem quiet_addProcedure (g : CallGraph) (p : Procedure) : (addProcedure g p).Quiet := by
  refine (quiet_ask _).bind fun body => ?_
  cases body with
  | none => exact (steady_pure g).quiet
  | some body => exact quiet_foldlM (fun g placed => quiet_addTargets p _ _ _ g _) _ g

theorem quiet_build : build.Quiet := by
  refine (quiet_ask _).bind fun _ => quiet_get.bind fun seen => ?_
  refine (quiet_foldlM quiet_addProcedure _ _).bind fun g => ?_
  exact Quiet.bind (fun _ => ⟨.of_eq rfl rfl, rfl⟩) fun _ => (steady_pure g).quiet

theorem alike_of_build {start i : Inspection} {g : CallGraph} (built : build start = .ok g i) :
    start.Alike i := by
  have alike := (quiet_build start).1
  rwa [attempt_of_ok built] at alike

theorem issues_of_build {start i : Inspection} {g : CallGraph} (built : build start = .ok g i) :
    i.issues = start.issues := by
  have silent := (quiet_build start).2
  rwa [attempt_of_ok built] at silent

end CallGraph

theorem CostRecord.recalling_ofBody (p : Procedure) : (ofBody p).Recalling := by
  refine (recalling_ask _).bind fun body => ?_
  cases body with
  | none =>
      exact (recalling_record _ _).bind fun _ => (recalling_debug _ _).bind fun _ =>
        recalling_pure _
  | some body =>
      refine (recalling_depthMap p).bind fun depths => Recalling.bind ?_ fun _ => recalling_pure _
      induction callLines depths (p.placed body) with
      | nil => exact recalling_pure _
      | cons line rest ih => exact (recalling_debug _ _).bind fun _ => ih

/-- Whatever goes wrong in a body, the calls of a procedure are counted as soon as it is known
    whether it is application code. -/
theorem CostRecord.extract_returns {p : Procedure} {i : Inspection} {answer : Bool}
    (answered : i.isApplication p = .ok answer) :
    ∃ r j, extract p i = .ok r j ∧ i.Recalls j := by
  have asked : ask (·.isApplication p) i = .ok answer i := ask_of_ok answered
  cases answer with
  | false => exact ⟨_, i, bind_of_ok asked, .refl _⟩
  | true =>
      let told := i.debug .counting ("Collecting invocations for " ++ p.signature)
      have tells : Inspecting.debug .counting ("Collecting invocations for " ++ p.signature) i =
          .ok () told := rfl
      have toldRecalls : i.Recalls told := .of_eq rfl rfl
      have recalls := toldRecalls.trans (recalling_ofBody p told)
      cases attempted : (ofBody p).attempt told with
      | mk result j =>
          rw [attempted] at recalls
          cases result with
          | ok r =>
              refine ⟨r, j, (bind_of_ok asked).trans ((bind_of_ok tells).trans
                (bind_of_ok (a := Except.ok r) (t := j) ?_)), recalls⟩
              simp only [attempted]
          | error fault =>
              refine ⟨_, _, (bind_of_ok asked).trans ((bind_of_ok tells).trans
                (bind_of_ok (a := Except.error fault) (t := j) ?_)), recalls.trans (.of_eq rfl rfl)⟩
              simp only [attempted]

theorem CostRecord.extract_of_error {p : Procedure} {i : Inspection} {fault : Fault}
    (refused : i.isApplication p = .error fault) : extract p i = .error fault i :=
  bind_of_error (ask_of_error refused)

theorem CostRecord.recalling_extract (p : Procedure) : (extract p).Recalling := by
  intro i
  cases answered : i.isApplication p with
  | error fault =>
      simp only [attempt, extract_of_error answered]
      exact .refl _
  | ok answer =>
      obtain ⟨r, j, extracted, recalls⟩ := extract_returns answered
      rwa [attempt_of_ok extracted]

namespace Costing

/-- Counting stops at the first procedure of which it is not known whether it is application code. -/
theorem extractFrom_cases (count : Nat) (procedures : List Procedure) (costs : Costs) :
    (∃ n after, extractFrom count procedures costs = .ok n after ∧
        ∀ p ∈ procedures, ∃ answer, costs.inspection.isApplication p = .ok answer) ∨
      ∃ fault after, extractFrom count procedures costs = .error fault after ∧
        ∃ p ∈ procedures, costs.inspection.isApplication p = .error fault := by
  induction procedures generalizing count costs with
  | nil => exact .inl ⟨count, costs, rfl, by simp⟩
  | cons p rest ih =>
      cases answered : costs.inspection.isApplication p with
      | error fault =>
          have asked : inspect (ask (·.isApplication p)) costs = .error fault costs :=
            inspect_of_error (ask_of_error answered)
          exact .inr ⟨fault, costs, bind_of_error asked, p, List.mem_cons_self, answered⟩
      | ok answer =>
          have asked : inspect (ask (·.isApplication p)) costs = .ok answer costs :=
            inspect_of_ok (ask_of_ok answered)
          -- The rest is counted from a state in which the same questions are answered.
          have others : ∃ next counted, costs.inspection.Alike counted.inspection ∧
              extractFrom count (p :: rest) costs = extractFrom next rest counted := by
            cases answer with
            | false => exact ⟨count, costs, .refl _, bind_of_ok asked⟩
            | true =>
                obtain ⟨r, j, extracted, recalls⟩ := CostRecord.extract_returns answered
                let filed : Costs :=
                  { inspection := j, store := costs.store.putLocal p.signature r }
                have registered : modifyStore (·.putLocal p.signature r)
                    { costs with inspection := j } = .ok () filed := rfl
                exact ⟨count + 1, filed, recalls.alike, (bind_of_ok asked).trans
                  ((bind_of_ok (inspect_of_ok extracted)).trans (bind_of_ok registered))⟩
          obtain ⟨next, counted, alike, goesOn⟩ := others
          rw [goesOn]
          rcases ih next counted with ⟨n, after, returned, allAnswered⟩ | ⟨fault, after, failed, refused⟩
          · refine .inl ⟨n, after, returned, List.forall_mem_cons.mpr ⟨⟨answer, answered⟩, ?_⟩⟩
            exact fun q listed => alike.isApplication q ▸ allAnswered q listed
          · obtain ⟨q, listed, refused⟩ := refused
            rw [alike.isApplication] at refused
            exact .inr ⟨fault, after, failed, q, List.mem_cons_of_mem _ listed, refused⟩

theorem extractAll_cases (procedures : List Procedure) (costs : Costs) :
    (∃ n after, extractAll procedures costs = .ok n after ∧
        ∀ p ∈ procedures, ∃ answer, costs.inspection.isApplication p = .ok answer) ∨
      ∃ fault after, extractAll procedures costs = .error fault after ∧
        ∃ p ∈ procedures, costs.inspection.isApplication p = .error fault := by
  rcases extractFrom_cases 0 procedures costs with
    ⟨n, after, returned, answered⟩ | ⟨fault, after, failed, refused⟩
  · exact .inl ⟨n, _, bind_of_ok returned, answered⟩
  · exact .inr ⟨fault, after, bind_of_error failed, refused⟩

end Costing

namespace Analysis

theorem costs_cases (g : CallGraph) (i : Inspection) :
    (∃ store after, costs g i = .ok store after ∧
        ∀ p ∈ i.program.applicationProcedures, ∃ answer, i.isApplication p = .ok answer) ∨
      ∃ fault after, costs g i = .error fault after ∧
        ∃ p ∈ i.program.applicationProcedures, i.isApplication p = .error fault := by
  let told := i.info .analysis "Counting how many calls each procedure does"
  have tells : Inspecting.info .analysis "Counting how many calls each procedure does" i =
      .ok () told := rfl
  have started : (get : Inspecting Inspection) told = .ok told told := rfl
  unfold costs
  rw [bind_of_ok tells, bind_of_ok started]
  rcases Costing.extractAll_cases told.program.applicationProcedures { inspection := told } with
    ⟨n, counted, extracted, answered⟩ | ⟨fault, counted, failed, refused⟩
  · simp only [extracted]
    exact .inl ⟨_, _, rfl, answered⟩
  · simp only [failed]
    exact .inr ⟨fault, _, rfl, refused⟩

theorem augment_alike (rules : List DispatchRule) (g : CallGraph) (i : Inspection) :
    ∃ g' synthetic j, augment rules g i = .ok (g', synthetic) j ∧ i.Alike j := by
  have started : (get : Inspecting Inspection) i = .ok i i := rfl
  unfold augment
  rw [bind_of_ok started]
  by_cases wanted : i.program.config.augmentCallGraph.truthy
  · simp only [wanted]
    exact ⟨_, _, _, rfl, Augmentation.alike_run rules _ { inspection := i, graph := g }⟩
  · simp only [wanted]
    exact ⟨g, [], i, rfl, .refl _⟩

theorem quiet_warn (config : Config) : (warn config).Quiet := by
  refine (steady_ofExcept _).quiet.bind fun warnings => ?_
  induction warnings with
  | nil => exact (steady_pure _).quiet
  | cons warning rest ih => exact Quiet.bind (fun _ => ⟨.of_eq rfl rfl, rfl⟩) fun _ => ih

/-- An analysis over a graph either returns, and then every application procedure was classified, or
    ends with the fault of a classification. -/
theorem ofGraph_cases (rules : List DispatchRule) (g : CallGraph) {i : Inspection}
    (entry : ∃ subsignature, i.program.config.entrySubsignature = .text subsignature) :
    (∃ a after, ofGraph rules g i = .ok a after ∧
        ∀ p ∈ i.program.applicationProcedures, ∃ answer, i.isApplication p = .ok answer) ∨
      ∃ fault after, ofGraph rules g i = .error fault after ∧
        ∃ p ∈ i.program.applicationProcedures, i.isApplication p = .error fault := by
  have started : (get : Inspecting Inspection) i = .ok i i := rfl
  obtain ⟨done, i₁, warned, -⟩ := returns_warn i entry i (.refl _)
  have alikeWarned := (quiet_warn i.program.config).neutral i
  rw [attempt_of_ok warned] at alikeWarned
  obtain ⟨g', synthetic, i₂, augmented, alikeAugmented⟩ := augment_alike rules g i₁
  have alike := alikeWarned.trans alikeAugmented
  unfold ofGraph
  rw [bind_of_ok started, bind_of_ok warned, bind_of_ok augmented]
  dsimp only
  rw [← alike.program.applicationProcedures]
  simp only [← alike.isApplication]
  rcases costs_cases g' i₂ with ⟨store, i₃, priced, answered⟩ | ⟨fault, i₃, failed, refused⟩
  · rw [bind_of_ok priced]
    left
    refine Exists.imp (fun a => Exists.imp fun after returned => ⟨returned, answered⟩) ?_
    refine Returns.here (.optional (returns_info _ _) (.seeing fun seen _ => ?_))
    exact .optional (returns_info _ _) (returns_pure _)
  · exact .inr ⟨fault, i₃, bind_of_error failed, refused⟩

/-- A procedure of a class that is called by a text can be told from library code unless the question
    itself fails. -/
theorem isApplication_of_declared {i : Inspection} (named : i.program.Named)
    (owned : ∀ c ∈ i.program.classes.values, c.OwnsMethods) {p : Procedure}
    (listed : p ∈ i.program.applicationProcedures) :
    ∃ answer, i.isApplication p = i.answer .application (.text p.signature) (.ok answer) := by
  obtain ⟨c, isApplication, isMethod⟩ := List.mem_flatMap.mp listed
  have isClass := (List.mem_filter.mp isApplication).1
  obtain ⟨name, isName⟩ := named c isClass
  have isText := owned c isClass p isMethod
  rw [isName] at isText
  refine ⟨!i.program.config.isLibraryClass name, ?_⟩
  unfold Inspection.isApplication Program.isApplication Procedure.className
  rw [Atom.eq_of_equals_text isText]
  rfl

/-- Whatever fails once the call graph is built, an analysis returns if and only if every application
    procedure can be told from library code; otherwise it ends with the fault of that question. -/
theorem ofGraph_returns_iff_classified {config : Config} {classes : List ClassDecl}
    {start i : Inspection} {g : CallGraph}
    (made : ∀ c ∈ classes, ∃ shell methods, ClassDecl.make shell methods = .ok c)
    (loaded : Program.ofClasses config classes = .ok start.program)
    (entry : ∃ subsignature, config.entrySubsignature = .text subsignature)
    (built : CallGraph.build start = .ok g i) (rules : List DispatchRule)
    (failures : List QueryFailure) :
    ((∃ a after, ofGraph rules g { i with failures } = .ok a after) ↔
        ∀ p ∈ start.program.applicationProcedures,
          Inspection.failure? { i with failures } .application (.text p.signature) = none) ∧
      ∀ fault after, ofGraph rules g { i with failures } = .error fault after →
        ∃ p ∈ start.program.applicationProcedures,
          Inspection.failure? { i with failures } .application (.text p.signature) = some fault := by
  obtain ⟨sameConfig, -, values, -⟩ := Program.addClasses_fields loaded
  have values : start.program.classes.values = classes := values
  have alike := CallGraph.alike_of_build built
  obtain ⟨done, j, required, -⟩ := ok_of_bind built
  have named := Program.named_of_requireNames (ok_of_ask required).2
  rw [← alike.program.applicationProcedures]
  -- Whether the question is answered is up to the failures alone.
  have answer : ∀ p ∈ i.program.applicationProcedures, ∃ answer,
      Inspection.isApplication { i with failures } p =
        Inspection.answer { i with failures } .application (.text p.signature) (.ok answer) := by
    intro p listed
    refine isApplication_of_declared (i := { i with failures }) (alike.program.named named) ?_ listed
    rw [alike.program.classes, values]
    intro c isClass
    obtain ⟨shell, methods, makes⟩ := made c isClass
    exact ClassDecl.ownsMethods_of_make makes
  have entryNow : ∃ subsignature, i.program.config.entrySubsignature = .text subsignature := by
    rw [alike.program.config, sameConfig]
    exact entry
  rcases ofGraph_cases rules g (i := { i with failures }) entryNow with
    ⟨a, after, returned, answered⟩ | ⟨fault, after, failed, p, listed, refused⟩
  · refine ⟨iff_of_true ⟨a, after, returned⟩ fun p listed => ?_, fun fault j failed => ?_⟩
    · obtain ⟨value, answers⟩ := answer p listed
      obtain ⟨known, isKnown⟩ := answered p listed
      exact (Inspection.answer_eq_ok.mp (answers ▸ isKnown)).1
    · cases returned.symm.trans failed
  · obtain ⟨value, answers⟩ := answer p listed
    have armed : Inspection.failure? { i with failures } .application (.text p.signature) =
        some fault := by
      rw [answers, Inspection.answer] at refused
      cases found : Inspection.failure? { i with failures } .application (.text p.signature) with
      | none => simp [found] at refused
      | some other => simpa [found] using refused
    refine ⟨iff_of_false ?_ ?_, fun other j failedAgain => ?_⟩
    · rintro ⟨a, j, returned⟩
      cases returned.symm.trans failed
    · intro clear
      cases (clear p listed).symm.trans armed
    · cases failed.symm.trans failedAgain
      exact ⟨p, listed, armed⟩

/-- Every question fails for all subjects, except whether code is application code. -/
def outages : List QueryFailure :=
  [.body, .depths, .procedure, .cost, .runnable, .thread, .entry, .classInfo].map fun query =>
    { query, key := .text "*", message := "down" }

theorem ofGraph_returns_iff_classified_of_outages :
    ∃ g i, CallGraph.build { program := Program.sample } = .ok g i ∧
      ∃ a after, ofGraph DispatchRule.all g { i with failures := outages } = .ok a after := by
  have reliable : Inspection.Reliable { program := Program.sample } :=
    ⟨rfl, Program.built_sample.coherent, Program.readable_sample.named⟩
  obtain ⟨g, i, built, -⟩ :=
    CallGraph.returns_build reliable Program.readable_sample _ (.refl _)
  have loaded : Program.ofClasses {} [Program.sampleClass] = .ok Program.sample := by cbv
  have made : ∀ c ∈ [Program.sampleClass], ∃ shell methods,
      ClassDecl.make shell methods = .ok c := by
    intro c isClass
    cases List.mem_singleton.mp isClass
    exact ⟨Program.sampleClass, Program.sampleClass.methods, by cbv⟩
  refine ⟨g, i, built, ?_⟩
  refine (ofGraph_returns_iff_classified made loaded ⟨_, rfl⟩ built DispatchRule.all outages).1.mpr ?_
  intro p listed
  simp [Inspection.failure?, Inspection.failureFor, outages]

/-- A program with one procedure, which calls nothing. -/
def quietProgram : Program where
  classes := OrderedMap.empty.insert (.text "app.Main")
    { name := .text "app.Main", methods := [Program.sampleMethod "void main()" []] }
  procedures := Program.fileAll .empty [Program.sampleMethod "void main()" []]

theorem unclassified_procedure_ends_analysis :
    ∃ i, CallGraph.build { program := quietProgram } = .ok {} i ∧
      ∃ after, ofGraph DispatchRule.all {} { i with failures :=
          [{ query := .application, key := .text "<app.Main: void main()>", message := "down" }] } =
        .error (.query "down") after := by
  exact ⟨_, by cbv, _, by cbv⟩

end Analysis

end CallWeight
