import CallWeight.Analysis
import CallWeight.Proofs.GraphIndex
import CallWeight.Proofs.Inspections

/-! # Where the edges of an analysis come from

Every edge that building or augmenting a call graph adds leaves a statement of its own source, and
its target is a procedure that the program knows. This is all that the propagation of costs needs to
know about a graph.
-/

namespace CallWeight

/-- The edges of a graph lead from statements of their sources to known procedures. -/
structure CallGraph.Fits (g : CallGraph) (program : Program) : Prop where
  indexed : g.Indexed
  sited : ∀ e ∈ g.edges, ∃ position, e.site = e.source.site position
  knows : ∀ e ∈ g.edges, program.Knows e.target

theorem Procedure.site_of_placed {p : Procedure} {body : List Statement} {site : Site}
    {s : Statement} (placed : (site, s) ∈ p.placed body) : ∃ position, site = p.site position := by
  obtain ⟨⟨statement, position⟩, -, located⟩ := List.mem_map.mp placed
  cases located
  exact ⟨position, rfl⟩

namespace CallGraph

variable {g : CallGraph} {program : Program}

namespace Fits

theorem empty (program : Program) : Fits {} program where
  indexed := .empty
  sited := by simp
  knows := by simp

theorem later {after : Program} (fits : g.Fits program) (later : program.Later after) :
    g.Fits after :=
  { fits with knows := fun e isEdge => later.knows (fits.knows e isEdge) }

theorem insertEdge (fits : g.Fits program) {e : CallEdge}
    (isNew : g.hasEdge e.site e.target.signature = false)
    (sited : ∃ position, e.site = e.source.site position) (known : program.Knows e.target) :
    (g.insertEdge e).Fits program := by
  have isEdge : ∀ f, f ∈ (g.insertEdge e).edges ↔ f ∈ g.edges ∨ f = e := by
    simp [CallGraph.insertEdge]
  refine ⟨fits.indexed.insertEdge isNew, fun f inside => ?_, fun f inside => ?_⟩
  · rcases (isEdge f).mp inside with old | rfl
    · exact fits.sited f old
    · exact sited
  · rcases (isEdge f).mp inside with old | rfl
    · exact fits.knows f old
    · exact known

theorem addEdge (fits : g.Fits program) {e : CallEdge}
    (sited : ∃ position, e.site = e.source.site position) (known : program.Knows e.target) :
    (g.addEdge e).Fits program := by
  unfold CallGraph.addEdge
  split
  · exact fits
  · rename_i isNew
    exact fits.insertEdge (by simpa using isNew) sited known

end Fits

/-! ## Building -/

/-- What holds of the graph and of the inspection while a graph is built. -/
structure Grown (start : Inspection) (g : CallGraph) (i : Inspection) : Prop where
  later : start.Later i
  fits : g.Fits i.program

/-- What is written down meanwhile does not matter. -/
theorem Grown.noted {start i j : Inspection} (grown : Grown start g i)
    (failures : j.failures = i.failures) (program : j.program = i.program) : Grown start g j :=
  ⟨grown.later.trans (.of_eq failures program), program ▸ grown.fits⟩

theorem Grown.addTargets {start i j : Inspection} {p : Procedure} {site : Site} {s : Statement}
    {kind : EdgeKind} {names : List Json} {g' : CallGraph} (coherent : start.program.Coherent)
    (sited : ∃ position, site = p.site position) (grown : Grown start g i)
    (returned : CallGraph.addTargets p site s kind g names i = .ok g' j) : Grown start g' j := by
  induction names generalizing g i with
  | nil =>
      cases returned
      exact grown
  | cons name rest ih =>
      obtain ⟨target, middle, found, others⟩ := ok_of_bind returned
      have later := (Inspecting.harmless_procedure name).later found
      have known := Inspecting.knows_of_procedure (grown.later.program.coherent coherent).isFiled found
      refine ih ⟨grown.later.trans later, ?_⟩ others
      exact (grown.fits.later later.program).addEdge sited known

theorem Grown.addProcedure {start i j : Inspection} {p : Procedure} {g' : CallGraph}
    (coherent : start.program.Coherent) (grown : Grown start g i)
    (returned : CallGraph.addProcedure g p i = .ok g' j) : Grown start g' j := by
  obtain ⟨body, middle, asked, others⟩ := ok_of_bind returned
  have later := (Inspecting.harmless_ask _).later asked
  have grown : Grown start g middle := ⟨grown.later.trans later, grown.fits.later later.program⟩
  cases body with
  | none =>
      cases others
      exact grown
  | some body =>
      refine foldlM_preserves (P := Grown start) ?_ grown others
      intro placed isPlaced g i g' j grown added
      obtain ⟨site, s⟩ := placed
      exact grown.addTargets coherent (Procedure.site_of_placed isPlaced) added

theorem grown_of_build {start j : Inspection} (coherent : start.program.Coherent)
    (returned : build start = .ok g j) : Grown start g j ∧ start.program.Named := by
  obtain ⟨done, i, required, others⟩ := ok_of_bind returned
  obtain ⟨rfl, checked⟩ := Inspecting.ok_of_ask required
  obtain ⟨seen, i, started, others⟩ := ok_of_bind others
  cases started
  obtain ⟨g, i, built, others⟩ := ok_of_bind others
  have grown : Grown _ g i := foldlM_preserves
    (fun p _ g i g' j grown added => grown.addProcedure coherent added) ⟨.refl _, .empty _⟩ built
  obtain ⟨done, i, logged, others⟩ := ok_of_bind others
  cases logged
  cases others
  exact ⟨grown.noted rfl rfl, Program.named_of_requireNames checked⟩

end CallGraph

/-! ## Runnable entries -/

namespace Dispatch

open Inspecting

theorem harmless_isRunnable (c : ClassDecl) : (isRunnable c).Harmless := by
  refine (harmless_ask _).bind fun implements => ?_
  split
  · exact harmless_pure _
  · exact harmless_ask _

theorem harmless_entryOf (c : ClassDecl) : (entryOf c).Harmless := by
  refine (harmless_isRunnable c).bind fun runnable => ?_
  split
  · exact (harmless_entryPoint c).bind fun _ => harmless_pure _
  · exact harmless_pure _

theorem eq_of_isRunnable {c : ClassDecl} {i j : Inspection} {answer : Bool}
    (asked : isRunnable c i = .ok answer j) : j = i := by
  obtain ⟨implements, middle, first, others⟩ := ok_of_bind asked
  obtain ⟨rfl, -⟩ := ok_of_ask first
  cases implements with
  | true =>
      cases others
      rfl
  | false => exact (ok_of_ask others).1

theorem knows_of_entryOf {c : ClassDecl} {i j : Inspection} {p : Procedure}
    (filed : i.program.Filed) (isClass : c ∈ i.program.classes.values)
    (returned : entryOf c i = .ok (some (some p)) j) : j.program.Knows p := by
  obtain ⟨runnable, middle, asked, others⟩ := ok_of_bind returned
  obtain rfl := eq_of_isRunnable asked
  cases runnable with
  | false => cases others
  | true =>
      obtain ⟨entry, final, found, others⟩ := ok_of_bind others
      cases others
      exact knows_of_entryPoint filed isClass found

theorem classEntry_spec (config : Config) {c : ClassDecl} {i : Inspection}
    (coherent : i.program.Coherent) (isClass : c ∈ i.program.classes.values) :
    i.Later (classEntry config c i).2 ∧
      ∀ p ∈ (classEntry config c i).1, (classEntry config c i).2.program.Knows p := by
  have later := harmless_entryOf c i
  unfold classEntry
  cases result : entryOf c i with
  | error fault j =>
      rw [attempt_of_error result] at later ⊢
      exact ⟨later.trans (.of_eq rfl rfl), by simp⟩
  | ok outcome j =>
      rw [attempt_of_ok result] at later ⊢
      match outcome with
      | none => exact ⟨later, by simp⟩
      | some none => exact ⟨later.trans (.of_eq rfl rfl), by simp⟩
      | some (some p) =>
          refine ⟨later, fun q isEntry => ?_⟩
          cases isEntry
          exact knows_of_entryOf coherent.isFiled isClass result

theorem entriesOf_spec (config : Config) {classes : List ClassDecl} {i : Inspection}
    (coherent : i.program.Coherent) (areClasses : classes ⊆ i.program.classes.values) :
    i.Later (entriesOf config classes i).2 ∧
      ∀ p ∈ (entriesOf config classes i).1, (entriesOf config classes i).2.program.Knows p := by
  induction classes generalizing i with
  | nil => exact ⟨.refl _, by simp [entriesOf]⟩
  | cons c rest ih =>
      obtain ⟨isClass, restAre⟩ := List.cons_subset.mp areClasses
      unfold entriesOf
      split
      · exact ih coherent restAre
      · obtain ⟨later, known⟩ := classEntry_spec config coherent isClass
        obtain ⟨laterRest, knownRest⟩ := ih (later.program.coherent coherent)
          (later.program.classes ▸ restAre)
        refine ⟨later.trans laterRest, fun p listed => ?_⟩
        rcases List.mem_append.mp listed with first | inRest
        · exact laterRest.program.knows (known p (Option.mem_toList.mp first))
        · exact knownRest p inRest

theorem runnableEntries_spec (config : Config) {i : Inspection} (coherent : i.program.Coherent) :
    i.Later (runnableEntries config i).2 ∧
      ∀ p ∈ (runnableEntries config i).1, (runnableEntries config i).2.program.Knows p :=
  entriesOf_spec config coherent List.filter_sublist.subset

end Dispatch

/-! ## Dispatch rules -/

namespace DispatchRule

open Inspecting

theorem harmless_submitted (context : Context) (caller : Procedure) (s : Statement) :
    (submitted context caller s).Harmless := by
  unfold submitted
  split
  · exact harmless_pure _
  · refine (harmless_ask _).bind fun found => ?_
    cases found with
    | none => exact harmless_pure _
    | some c =>
        simp only
        split
        · exact harmless_pure _
        · refine (harmless_entryPoint c).bind fun entry => ?_
          cases entry <;> exact harmless_pure _

theorem harmless_judge (rule : DispatchRule) (context : Context) (g : CallGraph)
    (caller : Procedure) (site : Site) (s : Statement) :
    (rule.judge context g caller site s).Harmless := by
  unfold judge
  split
  · exact harmless_pure _
  · cases rule with
    | submit =>
        simp only
        split
        · exact harmless_submitted context caller s
        · exact harmless_pure _
    | start =>
        simp only
        split <;> exact harmless_pure _
    | fallback =>
        simp only
        split
        · exact (harmless_procedure _).bind fun _ => harmless_pure _
        · exact harmless_pure _

theorem class?_of_classInfo {i : Inspection} {name : Json} {c : ClassDecl}
    (found : i.classInfo name = .ok (some c)) : c ∈ i.program.classes.values := by
  unfold Inspection.classInfo at found
  cases keyed : name.asKey with
  | error fault => simp [keyed, bind, Except.bind] at found
  | ok key =>
      simp only [keyed, bind, Except.bind] at found
      split at found
      · cases found
      · cases declared : i.program.class? key with
        | none => simp [declared, pure, Except.pure] at found
        | some d =>
            simp only [declared, pure, Except.pure, Except.ok.injEq, Option.some.injEq] at found
            exact found ▸ OrderedMap.mem_values_of_get? declared

theorem knows_of_submitted {context : Context} {caller : Procedure} {s : Statement}
    {i j : Inspection} {targets : List Procedure} (filed : i.program.Filed)
    (returned : submitted context caller s i = .ok (.targets targets) j) :
    ∀ p ∈ targets, j.program.Knows p := by
  unfold submitted at returned
  cases typed : s.firstArgType with
  | none =>
      simp only [typed] at returned
      cases returned
  | some type =>
      simp only [typed] at returned
      obtain ⟨found, middle, asked, others⟩ := ok_of_bind returned
      obtain ⟨rfl, info⟩ := ok_of_ask asked
      cases found with
      | none => cases others
      | some c =>
          by_cases isInterface : c.isInterface
          · simp only [isInterface] at others
            cases others
          · simp only [isInterface] at others
            obtain ⟨entry, middle, searched, others⟩ := ok_of_bind others
            cases entry with
            | none => cases others
            | some p =>
                cases others
                intro q listed
                cases List.mem_singleton.mp listed
                exact knows_of_entryPoint filed (class?_of_classInfo info) searched

/-- Rules only name procedures that the program knows. -/
theorem knows_of_judge {rule : DispatchRule} {context : Context} {g : CallGraph}
    {caller : Procedure} {site : Site} {s : Statement} {i j : Inspection}
    {targets : List Procedure} (filed : i.program.Filed)
    (entriesKnown : ∀ p ∈ context.entries, i.program.Knows p)
    (returned : rule.judge context g caller site s i = .ok (.targets targets) j) :
    ∀ p ∈ targets, j.program.Knows p := by
  unfold judge at returned
  cases invoked : s.invokedMethod with
  | none =>
      simp only [invoked] at returned
      cases returned
  | some method =>
      simp only [invoked] at returned
      cases rule with
      | submit =>
          by_cases applies : isAmong context.config.submitSignatures method
          · simp only [applies] at returned
            exact knows_of_submitted filed returned
          · simp only [applies] at returned
            cases returned
      | start =>
          by_cases applies : isAmong context.config.threadStartSignatures method
          · simp only [applies] at returned
            cases returned
            intro p listed
            exact entriesKnown p (List.mem_filter.mp listed).1
          · simp only [applies] at returned
            cases returned
      | fallback =>
          by_cases applies : (g.edgesOutOf site).isEmpty
          · simp only [applies] at returned
            obtain ⟨p, middle, found, others⟩ := ok_of_bind returned
            cases others
            intro q listed
            cases List.mem_singleton.mp listed
            exact knows_of_procedure filed found
          · simp only [applies] at returned
            cases returned

end DispatchRule

/-! ## Augmenting -/

namespace Augmentation

open CallGraph (Grown)

variable {start : Inspection} {a : Augmentation}

theorem grown_link (rule : DispatchRule) {caller : Procedure} {site : Site} (s : Statement)
    {targets : List Procedure} (sited : ∃ position, site = caller.site position)
    (known : ∀ p ∈ targets, a.inspection.program.Knows p)
    (grown : Grown start a.graph a.inspection) :
    Grown start (link rule caller site s a targets).1.graph
      (link rule caller site s a targets).1.inspection := by
  induction targets generalizing a with
  | nil => exact grown
  | cons target rest ih =>
      obtain ⟨targetKnown, restKnown⟩ := List.forall_mem_cons.mp known
      unfold link
      split
      · exact ih restKnown grown
      · rename_i isNew
        have fits := grown.fits.insertEdge
          (e := { source := caller, site, index := s.index, target, kind := rule.edgeKind })
          (by simpa using isNew) sited targetKnown
        exact ih restKnown (Grown.noted ⟨grown.later, fits⟩ rfl rfl)

section Walk

variable {context : DispatchRule.Context} (coherent : start.program.Coherent)
  (entriesKnown : ∀ p ∈ context.entries, start.program.Knows p)

include coherent entriesKnown

theorem grown_applyRules {caller : Procedure} {site : Site} (s : Statement)
    (rules : List DispatchRule) (sited : ∃ position, site = caller.site position)
    (grown : Grown start a.graph a.inspection) :
    Grown start (applyRules context caller site s a rules).1.graph
      (applyRules context caller site s a rules).1.inspection := by
  induction rules generalizing a with
  | nil => exact grown
  | cons rule rest ih =>
      have later := rule.harmless_judge context a.graph caller site s a.inspection
      unfold applyRules
      cases result : rule.judge context a.graph caller site s a.inspection with
      | error fault j =>
          rw [Inspecting.attempt_of_error result] at later ⊢
          have grown : Grown start a.graph j :=
            ⟨grown.later.trans later, grown.fits.later later.program⟩
          exact grown.noted rfl rfl
      | ok verdict j =>
          rw [Inspecting.attempt_of_ok result] at later ⊢
          have grownAfter : Grown start a.graph j :=
            ⟨grown.later.trans later, grown.fits.later later.program⟩
          cases verdict with
          | pass => exact ih grownAfter
          | targets targets =>
              refine grown_link rule s sited ?_ grownAfter
              exact DispatchRule.knows_of_judge (grown.later.program.coherent coherent).isFiled
                (fun p listed => grown.later.program.knows (entriesKnown p listed)) result
          | unclear failure => exact grownAfter.noted rfl rfl

omit coherent entriesKnown in
theorem grown_descend (targets : List Procedure) (edges : List CallEdge)
    (grown : Grown start a.graph a.inspection) :
    Grown start (a.descend targets edges).1.graph (a.descend targets edges).1.inspection := by
  induction edges generalizing a targets with
  | nil => exact grown
  | cons e rest ih =>
      unfold descend
      split
      · exact ih targets grown
      · refine ih _ ?_
        split
        · exact grown
        · exact grown.noted rfl rfl

theorem grown_walkBody (rules : List DispatchRule) {p : Procedure} (targets : List Procedure)
    {body : List (Site × Statement)}
    (sited : ∀ placed ∈ body, ∃ position, placed.1 = p.site position)
    (grown : Grown start a.graph a.inspection) :
    Grown start (walkBody rules context p a targets body).1.graph
      (walkBody rules context p a targets body).1.inspection := by
  induction body generalizing a targets with
  | nil => exact grown
  | cons placed rest ih =>
      obtain ⟨firstSited, restSited⟩ := List.forall_mem_cons.mp sited
      unfold walkBody
      split
      · refine ih _ restSited (grown_descend _ _ ?_)
        exact grown_applyRules coherent entriesKnown _ rules firstSited grown
      · exact ih targets restSited grown

theorem grown_visit (rules : List DispatchRule) (p : Procedure)
    (grown : Grown start a.graph a.inspection) :
    Grown start (visit rules context p a).1.graph (visit rules context p a).1.inspection := by
  unfold visit
  dsimp only
  split
  · exact grown.noted rfl rfl
  · exact grown.noted rfl rfl
  · refine grown_walkBody coherent entriesKnown rules [] ?_ grown
    exact fun placed isPlaced => Procedure.site_of_placed isPlaced

theorem grown_walk (rules : List DispatchRule) (declared : List Text) (worklist : List Procedure)
    (grown : Grown start a.graph a.inspection) :
    Grown start (walk rules context declared worklist a).graph
      (walk rules context declared worklist a).inspection := by
  fun_induction walk rules context declared worklist a with
  | case1 a => exact grown
  | case2 p worklist a wasVisited ih => exact ih grown
  | case3 p worklist a isNew next isDeclared ih =>
      exact ih (grown_visit coherent entriesKnown rules p grown)
  | case4 p worklist a isNew next isUndeclared ih =>
      exact ih (grown_visit coherent entriesKnown rules p grown)

theorem grown_extend (rules : List DispatchRule) (declared : List Text) (roots : List Procedure)
    (grown : Grown start a.graph a.inspection) :
    Grown start (extend rules context declared a roots).graph
      (extend rules context declared a roots).inspection := by
  induction roots generalizing a with
  | nil => exact grown
  | cons root rest ih =>
      simp only [extend, List.foldl_cons]
      refine ih ?_
      split
      · exact grown
      · exact grown_walk coherent entriesKnown rules declared [root] grown

end Walk

theorem grown_run (rules : List DispatchRule) (config : Config)
    (coherent : a.inspection.program.Coherent) (fits : a.graph.Fits a.inspection.program) :
    Grown a.inspection (run rules config a).graph (run rules config a).inspection := by
  obtain ⟨later, known⟩ := Dispatch.runnableEntries_spec config coherent
  unfold run
  generalize Dispatch.runnableEntries config a.inspection = found at later known
  obtain ⟨entries, i⟩ := found
  simp only at later known
  let started := i.info .dispatch s!"Augmenting call graph ({entries.length} runnable entry points)"
  have laterStarted : a.inspection.Later started := later.trans (.of_eq rfl rfl)
  let extended := extend rules { config, entries } (declaredSignatures started.program)
    { a with inspection := started, added := [] } started.program.applicationProcedures
  have grown : Grown started extended.graph extended.inspection :=
    grown_extend (laterStarted.program.coherent coherent) known rules _ _
      ⟨.refl _, fits.later laterStarted.program⟩
  exact Grown.noted ⟨laterStarted.trans grown.later, grown.fits⟩ rfl rfl

end Augmentation

end CallWeight
