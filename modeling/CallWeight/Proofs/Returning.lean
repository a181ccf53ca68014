import CallWeight.Proofs.AnalysisPhases

/-! # When an analysis returns

An analysis stops early only over what it cannot read: a class that is not called by a text, an entry
method that is not given as a text, or a call target that is neither in the table nor a signature that
a phantom could be made of. A program without these is readable, and an analysis of it returns unless
a question fails.
-/

namespace CallWeight

namespace Program

/-- Whether a value names a procedure that the table holds or that can become a phantom. -/
def resolves (program : Program) : Json → Bool
  | .text signature => program.procedures.contains signature || (Signature.split signature).isOk
  | _ => false

structure Readable (program : Program) : Prop where
  named : program.Named
  targets : ∀ p ∈ program.applicationProcedures, ∀ s ∈ p.statements, ∀ name ∈ s.declaredTargets,
    program.resolves name
  entry : ∃ subsignature, program.config.entrySubsignature = .text subsignature

theorem requireNames_of_named {program : Program} (named : program.Named) :
    program.requireNames = .ok () := by
  unfold Named at named
  unfold requireNames
  generalize program.classes.values = classes at named
  induction classes with
  | nil => rfl
  | cons c rest ih =>
      obtain ⟨⟨name, isText⟩, others⟩ := List.forall_mem_cons.mp named
      obtain ⟨name', superclass, interfaces, interfaceMark, methods⟩ := c
      cases isText
      exact ih others

theorem procedure_of_resolves {program : Program} {signature : Text}
    (resolved : program.resolves (.text signature)) :
    ∃ result, program.procedure signature = .ok result := by
  unfold procedure
  cases held : program.procedures.get? signature with
  | some p => exact ⟨_, rfl⟩
  | none =>
      have splits : (Signature.split signature).isOk := by
        simpa [resolves, OrderedMap.contains, held] using resolved
      cases parts : Signature.split signature with
      | ok parts => exact ⟨_, by simp only [Procedure.phantom, parts]; rfl⟩
      | error fault => simp [parts, Except.isOk, Except.toBool] at splits

theorem Later.resolves {before after : Program} (later : before.Later after)
    (coherent : before.Coherent) {name : Json} (resolved : before.resolves name) :
    after.resolves name := by
  unfold Program.resolves at resolved ⊢
  split at resolved
  · rename_i signature
    simp only [Bool.or_eq_true] at resolved ⊢
    refine resolved.imp_left fun held => ?_
    obtain ⟨p, found⟩ := Option.isSome_iff_exists.mp held
    have known : before.Knows p := by
      unfold Knows
      rwa [coherent.filed found]
    have kept := later.knows known
    unfold Knows at kept
    rw [coherent.filed found] at kept
    exact Option.isSome_iff_exists.mpr ⟨p, kept⟩
  · cases resolved

end Program

namespace Inspection

/-- Whether a value names a procedure at every time since an inspection. -/
def Resolves (start : Inspection) (name : Json) : Prop :=
  ∀ i, start.Later i → i.program.resolves name

theorem Reliable.resolves {start : Inspection} (reliable : start.Reliable) {name : Json}
    (resolved : start.program.resolves name) : start.Resolves name := fun _ later =>
  later.program.resolves reliable.coherent resolved

theorem resolves_of_split {signature : Text} {parts : Text × Text}
    (splits : Signature.split signature = .ok parts) (start : Inspection) :
    start.Resolves (.text signature) := by
  intro i _
  simp [Program.resolves, splits, Except.isOk, Except.toBool]

end Inspection

namespace Inspecting

/-- Whether a computation returns from every inspection since a given one, to another one since
    then. -/
def Returns {α : Type} (start : Inspection) (x : Inspecting α) : Prop :=
  ∀ i, start.Later i → ∃ a j, x i = .ok a j ∧ start.Later j

section Returns

variable {α β : Type} {start : Inspection}

theorem Returns.here {x : Inspecting α} (returns : x.Returns start) :
    ∃ a j, x start = .ok a j := by
  obtain ⟨a, j, returned, -⟩ := returns start (.refl _)
  exact ⟨a, j, returned⟩

theorem Returns.bind {x : Inspecting α} {f : α → Inspecting β} (first : x.Returns start)
    (second : ∀ a, (f a).Returns start) : (x >>= f).Returns start := by
  intro i later
  obtain ⟨a, j, returned, laterFirst⟩ := first i later
  obtain ⟨b, k, returnedSecond, laterSecond⟩ := second a j laterFirst
  exact ⟨b, k, (bind_of_ok returned).trans returnedSecond, laterSecond⟩

theorem Returns.optional {c : Prop} [Decidable c] {x : Inspecting Unit}
    {f : Unit → Inspecting β} (first : x.Returns start) (second : (f ()).Returns start) :
    (if c then x >>= f else f ()).Returns start := by
  split
  · exact first.bind fun _ => second
  · exact second

theorem Returns.seeing {f : Inspection → Inspecting β}
    (second : ∀ seen, start.Later seen → (f seen).Returns start) :
    ((get : Inspecting Inspection) >>= f).Returns start := fun i later =>
  second i later i later

theorem returns_pure (a : α) : (pure a : Inspecting α).Returns start := fun i later =>
  ⟨a, i, rfl, later⟩

theorem returns_info (channel : LogChannel) (message : Text) :
    (info channel message).Returns start := fun i later =>
  ⟨(), i.info channel message, rfl, later.trans (.of_eq rfl rfl)⟩

theorem returns_warning (channel : LogChannel) (message : Text) :
    (warning channel message).Returns start := fun i later =>
  ⟨(), i.warning channel message, rfl, later.trans (.of_eq rfl rfl)⟩

theorem returns_ask {question : Inspection → Except Fault α}
    (answered : ∀ i, start.Later i → ∃ a, question i = .ok a) :
    (ask question).Returns start := by
  intro i later
  obtain ⟨a, answer⟩ := answered i later
  exact ⟨a, i, ask_of_ok answer, later⟩

theorem returns_foldlM {f : β → α → Inspecting β} {items : List α}
    (round : ∀ a ∈ items, ∀ b, (f b a).Returns start) (b : β) :
    (items.foldlM f b).Returns start := by
  induction items generalizing b with
  | nil => exact returns_pure b
  | cons a rest ih =>
      obtain ⟨first, others⟩ := List.forall_mem_cons.mp round
      exact (first b).bind (ih others)

theorem returns_forM {f : α → Inspecting Unit} (each : ∀ a, (f a).Returns start)
    (items : List α) : (items.forM f).Returns start := by
  induction items with
  | nil => exact returns_pure _
  | cons a rest ih => exact (each a).bind fun _ => ih

theorem returns_procedure (noFailures : start.failures = []) {name : Json}
    (resolved : start.Resolves name) : (procedure name).Returns start := by
  intro i later
  have resolvedNow := resolved i later
  have noFailuresNow : i.failures = [] := later.failures.trans noFailures
  cases isText : name with
  | atom value =>
      cases value with
      | text signature =>
          subst isText
          obtain ⟨⟨p, program⟩, found⟩ := Program.procedure_of_resolves resolvedNow
          obtain ⟨j, returned, -⟩ := declared_of_ok found
          refine ⟨p, j, ?_, later.trans ((harmless_declared _).later returned)⟩
          have keyed : (ofExcept (Json.text signature).asKey : Inspecting Atom) i =
              .ok (.text signature) i := rfl
          have started : (get : Inspecting Inspection) i = .ok i i := rfl
          have isText : (ofExcept ((Json.text signature).asText "startswith") : Inspecting Text) i =
              .ok signature i := rfl
          refine (bind_of_ok keyed).trans ((bind_of_ok started).trans ?_)
          simp only [Inspection.failure?_eq_none noFailuresNow]
          exact (bind_of_ok keyed).trans ((bind_of_ok isText).trans returned)
      | null | bool | int | real => simp [isText, Program.resolves] at resolvedNow
  | arr | obj => simp [isText, Program.resolves] at resolvedNow

end Returns

end Inspecting

namespace CallGraph

open Inspecting

variable {start : Inspection}

theorem returns_addTargets (noFailures : start.failures = []) (p : Procedure) (site : Site)
    (s : Statement) (kind : EdgeKind) (g : CallGraph) {names : List Json}
    (resolved : ∀ name ∈ names, start.Resolves name) :
    (addTargets p site s kind g names).Returns start := by
  induction names generalizing g with
  | nil => exact returns_pure g
  | cons name rest ih =>
      obtain ⟨first, others⟩ := List.forall_mem_cons.mp resolved
      exact (returns_procedure noFailures first).bind fun target => ih _ others

theorem returns_addProcedure (noFailures : start.failures = []) (g : CallGraph) {p : Procedure}
    (resolved : ∀ s ∈ p.statements, ∀ name ∈ s.declaredTargets, start.Resolves name) :
    (addProcedure g p).Returns start := by
  intro i later
  have asked : ask (·.body p) i = .ok p.body i :=
    ask_of_ok (Inspection.answer_of_noFailures (later.failures.trans noFailures) _ _ _)
  cases hasBody : p.body with
  | none => exact ⟨g, i, (bind_of_ok asked).trans (by rw [hasBody]; rfl), later⟩
  | some body =>
      have rounds : ((p.placed body).foldlM (addStatement p) g).Returns start := by
        refine returns_foldlM (fun placed isPlaced g => ?_) g
        obtain ⟨⟨s, position⟩, numbered, rfl⟩ := List.mem_map.mp isPlaced
        refine returns_addTargets noFailures p _ s _ g (resolved s ?_)
        simpa [Procedure.statements, hasBody] using List.fst_mem_of_mem_zipIdx numbered
      obtain ⟨g', j, returned, laterAdded⟩ := rounds i later
      exact ⟨g', j, (bind_of_ok asked).trans (by rw [hasBody]; exact returned), laterAdded⟩

theorem returns_build_of_resolves (noFailures : start.failures = []) (named : start.program.Named)
    (resolved : ∀ p ∈ start.program.applicationProcedures, ∀ s ∈ p.statements,
      ∀ name ∈ s.declaredTargets, start.Resolves name) : build.Returns start := by
  have names : ∀ i, start.Later i → ∃ a, i.program.requireNames = .ok a := fun i later =>
    ⟨(), Program.requireNames_of_named (later.program.named named)⟩
  refine (returns_ask names).bind fun _ => .seeing fun seen later => ?_
  rw [later.program.applicationProcedures]
  refine (returns_foldlM (fun p listed g =>
    returns_addProcedure noFailures g (resolved p listed)) {}).bind fun g => ?_
  exact (returns_info _ _).bind fun _ => returns_pure g

theorem returns_build (reliable : start.Reliable) (readable : start.program.Readable) :
    build.Returns start :=
  returns_build_of_resolves reliable.noFailures reliable.named fun p listed s isStatement name isTarget =>
    reliable.resolves (readable.targets p listed s isStatement name isTarget)

end CallGraph

namespace Analysis

open Inspecting

theorem returns_warn (start : Inspection) {config : Config}
    (isText : ∃ subsignature, config.entrySubsignature = .text subsignature) :
    (warn config).Returns start := by
  obtain ⟨subsignature, isText⟩ := isText
  have judged : ∃ warnings, config.warnings = .ok warnings := by
    simp only [Config.warnings, Config.toSettings, Settings.warnings, isText]
    exact ⟨_, rfl⟩
  obtain ⟨warnings, judged⟩ := judged
  intro i later
  have answered : (ofExcept config.warnings : Inspecting (List String)) i = .ok warnings i := by
    rw [judged]
    rfl
  obtain ⟨done, j, returned, laterWarned⟩ :=
    returns_forM (fun warning => returns_warning .analysis _) warnings i later
  exact ⟨done, j, (bind_of_ok answered).trans returned, laterWarned⟩

theorem ofGraph_returns {i : Inspection} {rules : List DispatchRule} {g : CallGraph}
    (reliable : i.Reliable) (fits : g.Fits i.program)
    (entry : ∃ subsignature, i.program.config.entrySubsignature = .text subsignature) :
    ∃ a after, ofGraph rules g i = .ok a after := by
  obtain ⟨done, i₁, warned, laterWarned⟩ := returns_warn i entry i (.refl _)
  obtain ⟨g', synthetic, i₂, augmented, laterAugmented, -⟩ := augment_spec rules
    (laterWarned.program.coherent reliable.coherent) (fits.later laterWarned.program)
  obtain ⟨start, counted, priced, -⟩ :=
    costs_spec (reliable.later (laterWarned.trans laterAugmented)) g'
  have started : (get : Inspecting Inspection) i = .ok i i := rfl
  unfold ofGraph
  rw [bind_of_ok started, bind_of_ok warned, bind_of_ok augmented]
  dsimp only
  rw [bind_of_ok priced]
  refine Returns.here (.optional (returns_info _ _) (.seeing fun seen _ => ?_))
  exact .optional (returns_info _ _) (returns_pure _)

theorem ofProgram_returns {i : Inspection} (reliable : i.Reliable)
    (readable : i.program.Readable) : ∃ a after, ofProgram i = .ok a after := by
  obtain ⟨g, j, built, later⟩ := CallGraph.returns_build reliable readable i (.refl _)
  obtain ⟨grown, -⟩ := CallGraph.grown_of_build reliable.coherent built
  have entry := later.program.config ▸ readable.entry
  obtain ⟨a, after, returned⟩ := ofGraph_returns (reliable.later later) grown.fits entry
  exact ⟨a, after, (bind_of_ok built).trans returned⟩

/-- What an analysis without failing questions ensures: it returns if the program is readable, and
    whatever it returns has a property. -/
def Ensures (i : Inspection) (property : Analysis → Prop) : Prop :=
  (i.program.Readable → ∃ a after, ofProgram i = .ok a after) ∧
    ∀ {a after}, ofProgram i = .ok a after → property a

theorem ensures {i : Inspection} {property : Analysis → Prop} (built : i.program.Built)
    (noFailures : i.failures = [])
    (holds : ∀ {a start counted}, Phases i a start counted → property a) :
    Ensures i property := by
  refine ⟨fun readable => ?_, fun returned => ?_⟩
  · exact ofProgram_returns ⟨noFailures, built.coherent, readable.named⟩ readable
  · obtain ⟨start, counted, phases⟩ := exists_phases noFailures built.coherent returned
    exact holds phases

/-- Whether a program is analysed and its analysis has a property, which is found out by evaluation. -/
def evaluates (i : Inspection) (property : Analysis → Prop) [DecidablePred property] : Bool :=
  match ofProgram i with
  | .ok a _ => property a
  | .error _ _ => false

theorem of_evaluates {property : Analysis → Prop} [DecidablePred property] {i after : Inspection}
    {a : Analysis} (evaluated : evaluates i property = true) (returned : ofProgram i = .ok a after) :
    property a := by
  unfold evaluates at evaluated
  rw [returned] at evaluated
  exact of_decide_eq_true evaluated

end Analysis

/-! ## A small program -/

namespace Program

def sampleMethod (subsignature : Text) (calls : List Text) : Procedure where
  declaringClass := .text "app.Main"
  subsignature := .text subsignature
  body := some (calls.map fun signature => { kind := .invoke, method := some (.text signature) })

/-- Calls `work` in a loop and once more after it. -/
def sampleMain : Procedure :=
  { sampleMethod "void main()" ["<app.Main: void work()>", "<app.Main: void work()>"] with
    loops := { loops := [{ header := 0, members := [0] }] } }

/-- Calls library code. -/
def sampleWork : Procedure := sampleMethod "void work()" ["<java.io.Console: void flush()>"]

/-- Calls `main` and then itself. -/
def sampleSpin : Procedure :=
  sampleMethod "void spin()" ["<app.Main: void main()>", "<app.Main: void spin()>"]

def sampleClass : ClassDecl where
  name := .text "app.Main"
  methods := [sampleMain, sampleWork, sampleSpin]

def sample : Program where
  classes := OrderedMap.empty.insert sampleClass.name sampleClass
  procedures := fileAll .empty sampleClass.methods

theorem built_sample : sample.Built := by
  have loaded : ofClasses {} [sampleClass] = .ok sample := by cbv
  refine .ofClasses (fun c isClass => ?_) (by decide) loaded
  cases List.mem_singleton.mp isClass
  exact ⟨sampleClass, sampleClass.methods, by cbv⟩

theorem applicationProcedures_sample :
    sample.applicationProcedures = [sampleMain, sampleWork, sampleSpin] := by
  cbv

theorem readable_sample : sample.Readable where
  named := by
    intro c isClass
    cases List.mem_singleton.mp isClass
    exact ⟨"app.Main", rfl⟩
  targets := by decide
  entry := ⟨"void run()", rfl⟩

end Program

end CallWeight
