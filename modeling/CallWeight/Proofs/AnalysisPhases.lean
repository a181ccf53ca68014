import CallWeight.Proofs.PropagationSteps

/-! # The phases of an analysis

An analysis that returns has built and augmented a graph that fits the program, then counted the calls
of the application procedures, then propagated the counts over that graph, and its cycles are those
of that graph.
-/

namespace CallWeight.Analysis

open Inspecting

theorem harmless_warn (config : Config) : (warn config).Harmless := by
  refine (harmless_ofExcept _).bind fun warnings => ?_
  induction warnings with
  | nil => exact harmless_pure _
  | cons warning rest ih => exact Harmless.bind (fun _ => .of_eq rfl rfl) fun _ => ih

theorem augment_spec (rules : List DispatchRule) {g : CallGraph} {i : Inspection}
    (coherent : i.program.Coherent) (fits : g.Fits i.program) :
    ∃ g' synthetic j, augment rules g i = .ok (g', synthetic) j ∧ i.Later j ∧ g'.Fits j.program := by
  have started : (get : Inspecting Inspection) i = .ok i i := rfl
  unfold augment
  rw [bind_of_ok started]
  by_cases wanted : i.program.config.augmentCallGraph.truthy
  · have grown := Augmentation.grown_run rules i.program.config
      (a := { inspection := i, graph := g }) coherent fits
    simp only [wanted]
    exact ⟨_, _, _, rfl, grown.later, grown.fits⟩
  · simp only [wanted]
    exact ⟨g, [], i, rfl, .refl _, fits⟩

theorem costs_spec {i : Inspection} (reliable : i.Reliable) (g : CallGraph) :
    ∃ start counted, costs g i =
        .ok (Propagation.run g counted).costs.store (Propagation.run g counted).costs.inspection ∧
      i.Later start ∧ start.issues = i.issues ∧ Counted start counted := by
  let start := i.info .analysis "Counting how many calls each procedure does"
  have later : i.Later start := .of_eq rfl rfl
  have logged : Inspecting.info .analysis "Counting how many calls each procedure does" i =
      .ok () start := rfl
  have started : (get : Inspecting Inspection) start = .ok start start := rfl
  obtain ⟨count, counted, extracted, tally⟩ := Costing.extractAll_spec (reliable.later later)
  unfold costs
  rw [bind_of_ok logged, bind_of_ok started]
  simp only [extracted]
  exact ⟨start, counted, rfl, later, rfl, tally⟩

/-- The inspections between the parts of an analysis that has returned. -/
structure Stages (i : Inspection) (a : Analysis) (g : CallGraph)
    (built warned augmented priced : Inspection) : Prop where
  builds : CallGraph.build i = .ok g built
  warns : warn built.program.config built = .ok () warned
  augments : augment DispatchRule.all g warned = .ok (a.graph, a.synthetic) augmented
  prices : costs a.graph augmented = .ok a.store priced
  cycles : a.cycles = a.graph.cycles
  issues : a.issues = priced.issues

theorem exists_stages {i after : Inspection} {a : Analysis} (returned : ofProgram i = .ok a after) :
    ∃ g built warned augmented priced, Stages i a g built warned augmented priced := by
  obtain ⟨g, built, builds, others⟩ := ok_of_bind returned
  obtain ⟨seen, i₁, started, others⟩ := ok_of_bind others
  cases started
  obtain ⟨done, warned, warns, others⟩ := ok_of_bind others
  obtain ⟨⟨final, synthetic⟩, augmented, augments, others⟩ := ok_of_bind others
  obtain ⟨store, priced, prices, others⟩ := ok_of_bind others
  obtain ⟨i₂, noted, others⟩ := ok_of_optional others
  have silent : i₂.issues = priced.issues := by
    rcases noted with rfl | noted
    · rfl
    · cases noted
      rfl
  obtain ⟨seen, i₃, started, others⟩ := ok_of_bind others
  cases started
  obtain ⟨i₄, -, others⟩ := ok_of_optional others
  cases others
  exact ⟨g, built, warned, augmented, priced, builds, warns, augments, prices, rfl, silent⟩

/-- What a returned analysis has been through. -/
structure Phases (i : Inspection) (a : Analysis) (start : Inspection) (counted : Costs) : Prop where
  later : i.Later start
  reliable : start.Reliable
  fits : a.graph.Fits start.program
  cycles : a.cycles = a.graph.cycles
  tally : Counted start counted
  store : a.store = (Propagation.run a.graph counted).costs.store
  issues : a.issues = (Propagation.run a.graph counted).costs.inspection.issues

theorem Stages.exists_phases {i built warned augmented priced : Inspection} {a : Analysis}
    {g : CallGraph} (stages : Stages i a g built warned augmented priced)
    (noFailures : i.failures = []) (coherent : i.program.Coherent) :
    ∃ start counted, Phases i a start counted ∧ start.issues = augmented.issues := by
  obtain ⟨grown, named⟩ := CallGraph.grown_of_build coherent stages.builds
  have laterWarned := (harmless_warn _).later stages.warns
  have later := grown.later.trans laterWarned
  obtain ⟨final, synthetic, j, spec, laterAugmented, fits⟩ := augment_spec DispatchRule.all
    (later.program.coherent coherent) (grown.fits.later laterWarned.program)
  cases spec.symm.trans stages.augments
  have reliable : Inspection.Reliable augmented :=
    .later ⟨noFailures, coherent, named⟩ (later.trans laterAugmented)
  obtain ⟨start, counted, spec, laterStart, silent, tally⟩ := costs_spec reliable a.graph
  obtain ⟨store, isPriced⟩ := EStateM.Result.ok.inj (stages.prices.symm.trans spec)
  exact ⟨start, counted,
    { later := later.trans (laterAugmented.trans laterStart)
      reliable := reliable.later laterStart
      fits := fits.later laterStart.program
      cycles := stages.cycles
      tally
      store
      issues := isPriced ▸ stages.issues }, silent⟩

theorem exists_phases {i after : Inspection} {a : Analysis} (noFailures : i.failures = [])
    (coherent : i.program.Coherent) (returned : ofProgram i = .ok a after) :
    ∃ start counted, Phases i a start counted := by
  obtain ⟨g, built, warned, augmented, priced, stages⟩ := exists_stages returned
  obtain ⟨start, counted, phases, -⟩ := stages.exists_phases noFailures coherent
  exact ⟨start, counted, phases⟩

/-- The records of a returned analysis are reached by steps, in a state in which nothing is unfinished
    and all application procedures are resolved. -/
theorem Phases.exists_final {i start : Inspection} {a : Analysis} {counted : Costs}
    (phases : Phases i a start counted) :
    ∃ s : Progress a.graph,
      Relation.ReflTransGen (Progress.Step start.program) .none s ∧ s.stack = [] ∧
        (∀ p ∈ i.program.applicationProcedures, start.program.Knows p ∧ p.signature ∈ s.resolved) ∧
        s.records = a.store.propagated.get? := by
  have reliable := phases.reliable
  obtain ⟨steps, idle, resolved⟩ := Propagation.run_steps reliable phases.fits phases.tally
  refine ⟨_, steps, idle, fun p listed => ?_, by rw [phases.store]; rfl⟩
  rw [← phases.later.program.applicationProcedures] at listed
  exact ⟨(reliable.coherent.knows_of_application reliable.named listed).1, resolved p listed⟩

end CallWeight.Analysis
