import CallWeight.Proofs.OrderIndependence

/-! # More edges and more application code never count less

A configuration that takes more classes for library code, or that does not ask for augmentation, makes
an analysis see fewer edges and look into fewer procedures. Away from recursion a propagated cost is a
sum over all walks, so it can only get smaller. On a cycle this is false, since there the cost depends
on where the propagation happens to enter.
-/

namespace CallWeight

/-! ## Graphs with fewer edges -/

namespace CallGraph

variable {g h : CallGraph} (fewer : g.edges ⊆ h.edges)

include fewer

theorem Calls.mono {x y : Text} (calls : g.Calls x y) : h.Calls x y := by
  obtain ⟨e, isEdge, ends⟩ := calls
  exact ⟨e, fewer isEdge, ends⟩

theorem Reaches.mono {x y : Text} (reaches : g.Reaches x y) : h.Reaches x y :=
  Relation.ReflTransGen.mono (fun _ _ => Calls.mono fewer) _ _ reaches

variable (indexed : g.Indexed) (indexedOther : h.Indexed)

include indexed indexedOther

/-- A procedure that is recursive with fewer edges is recursive with more of them. -/
theorem AcyclicFrom.mono {x : Text} (acyclic : h.AcyclicFrom x) : g.AcyclicFrom x := by
  intro cycle isCycle y inside reaches
  have recurs : h.Recurs y := Relation.TransGen.mono (fun _ _ => Calls.mono fewer) _ _
    (indexed.recurs_of_mem_cycles isCycle inside)
  obtain ⟨other, isOther, yIn⟩ := indexedOther.exists_cycle_of_recurs recurs
  exact acyclic other isOther y yIn (Reaches.mono fewer reaches)

theorem sum_edgesOutOf_le {value other : CallEdge → Nat} (le : ∀ e, value e ≤ other e)
    (site : Site) :
    ((g.edgesOutOf site).map value).sum ≤ ((h.edgesOutOf site).map other).sum := by
  have subset : g.edgesOutOf site ⊆ h.edgesOutOf site := by
    intro e leaves
    obtain ⟨isEdge, atSite⟩ := indexed.mem_edgesOutOf.mp leaves
    exact indexedOther.mem_edgesOutOf.mpr ⟨fewer isEdge, atSite⟩
  have distinct : (g.edgesOutOf site).Nodup := indexed.outOf site ▸ indexed.nodup_edges.filter _
  obtain ⟨middle, perm, sublist⟩ := distinct.subperm subset
  calc ((g.edgesOutOf site).map value).sum
    _ ≤ ((g.edgesOutOf site).map other).sum := List.sum_le_sum fun e _ => le e
    _ = (middle.map other).sum := (perm.map other).sum_eq.symm
    _ ≤ ((h.edgesOutOf site).map other).sum := (sublist.map other).sum_le_sum (by simp)

theorem costWithin_le_of_fewer {narrow wide : Config}
    (looks : ∀ p, narrow.looksInto p = true → wide.looksInto p = true) (c : Counter) (n : Nat)
    (p : Procedure) : g.costWithin narrow c n p ≤ h.costWithin wide c n p := by
  induction n generalizing p with
  | zero =>
      by_cases into : narrow.looksInto p
      · simp [costWithin, into, looks p into]
      · simp [costWithin, into]
  | succ n ih =>
      by_cases into : narrow.looksInto p
      · simp only [costWithin, into, looks p into, if_true]
        refine Nat.add_le_add_left (List.sum_le_sum fun position _ => Nat.mul_le_mul_left _ ?_) _
        exact sum_edgesOutOf_le fewer indexed indexedOther (fun e => ih e.target) _
      · simp [costWithin, into]

omit indexed indexedOther in
theorem fullCost_le_of_fewer {narrow wide : Program} (fits : g.Fits narrow)
    (fitsOther : h.Fits wide)
    (looks : ∀ p, narrow.config.looksInto p = true → wide.config.looksInto p = true) (c : Counter)
    {p : Procedure} (acyclic : h.AcyclicFrom p.signature) :
    g.fullCost narrow.config c p ≤ h.fullCost wide.config c p := by
  have acyclicFewer := acyclic.mono fewer fits.indexed fitsOther.indexed
  let n := max g.components.length h.components.length
  calc g.fullCost narrow.config c p
    _ = g.costWithin narrow.config c n p :=
        (costWithin_eq_fullCost fits acyclicFewer (Nat.le_max_left _ _)).symm
    _ ≤ h.costWithin wide.config c n p :=
        costWithin_le_of_fewer fewer fits.indexed fitsOther.indexed looks c n p
    _ = h.fullCost wide.config c p := costWithin_eq_fullCost fitsOther acyclic (Nat.le_max_right _ _)

end CallGraph

/-! ## Narrower configurations -/

/-- Whether a configuration differs from another one only in that more classes are library code, and
    in that perhaps no augmentation is asked for. -/
structure Config.Narrows (wide narrow : Config) : Prop where
  settings : narrow = { wide with
    libraryPrefixes := narrow.libraryPrefixes
    augmentCallGraph := narrow.augmentCallGraph }
  library : ∀ {name}, wide.isLibraryClass name = true → narrow.isLibraryClass name = true
  augments : narrow.augmentCallGraph.truthy = true → wide.augmentCallGraph.truthy = true

theorem Config.Narrows.application {wide narrow : Config} (narrows : wide.Narrows narrow)
    {name : Atom} (accepted : narrow.isApplicationClass name = true) :
    wide.isApplicationClass name = true := by
  obtain ⟨className, rfl, isOwn⟩ := isApplicationClass_iff.mp accepted
  refine isApplicationClass_iff.mpr ⟨className, rfl, Bool.eq_false_iff.mpr fun isLibrary => ?_⟩
  rw [narrows.library isLibrary] at isOwn
  cases isOwn

theorem Config.Narrows.looksInto {wide narrow : Config} (narrows : wide.Narrows narrow)
    {p : Procedure} (into : narrow.looksInto p = true) : wide.looksInto p = true := by
  simp only [Config.looksInto, Bool.and_eq_true] at into ⊢
  exact ⟨narrows.application into.1, into.2⟩

/-- Whether a program is another one under a narrower configuration, up to what it was asked. -/
structure Program.Narrows (wide narrow : Program) : Prop where
  config : wide.config.Narrows narrow.config
  classes : narrow.classes = wide.classes
  procedure : ∀ signature,
    (narrow.procedure signature).map Prod.fst = (wide.procedure signature).map Prod.fst

namespace Program.Narrows

variable {wide narrow : Program} (narrows : wide.Narrows narrow)

include narrows

theorem alike {wide' narrow' : Program} (alikeWide : wide.Alike wide')
    (alikeNarrow : narrow.Alike narrow') : wide'.Narrows narrow' where
  config := by
    rw [alikeWide.config, alikeNarrow.config]
    exact narrows.config
  classes := by rw [alikeNarrow.classes, narrows.classes, alikeWide.classes]
  procedure signature := by
    rw [alikeNarrow.procedure, narrows.procedure, alikeWide.procedure]

theorem class? (name : Atom) : narrow.class? name = wide.class? name := by
  simp only [Program.class?, narrows.classes]

theorem entryAbove (subsignature : Atom) (above : Ancestry) :
    narrow.entryAbove subsignature above = wide.entryAbove subsignature above := by
  have sameThread := congrArg Config.threadClass narrows.config.settings
  induction above with
  | done | broken => rfl
  | link name rest ih => simp only [Program.entryAbove, narrows.class?, sameThread, ih]

theorem entryPoint (c : ClassDecl) : narrow.entryPoint c = wide.entryPoint c := by
  have sameEntry := congrArg Config.entrySubsignature narrows.config.settings
  simp only [Program.entryPoint, entrySearch, sameEntry, ancestry_congr narrows.classes,
    narrows.entryAbove, narrows.procedure]

theorem threadEntry (c : ClassDecl) : narrow.threadEntry c = wide.threadEntry c := by
  have sameRunnable := congrArg Config.runnableInterface narrows.config.settings
  have sameThread := congrArg Config.threadClass narrows.config.settings
  simp only [Program.threadEntry, isRunnable, implementsRunnable, isThreadSubclass, sameRunnable,
    sameThread, narrows.classes, ancestry_congr narrows.classes, narrows.entryPoint]

theorem submission (caller : Procedure) (s : Statement) :
    narrow.submission caller s = wide.submission caller s := by
  have sameEntry := congrArg Config.entrySubsignature narrows.config.settings
  simp only [Program.submission, narrows.class?, narrows.entryPoint, sameEntry]

theorem applicationClasses : narrow.applicationClasses ⊆ wide.applicationClasses := by
  intro c listed
  obtain ⟨isClass, accepted⟩ := List.mem_filter.mp listed
  exact List.mem_filter.mpr ⟨narrows.classes ▸ isClass, narrows.config.application accepted⟩

theorem applicationProcedures : narrow.applicationProcedures ⊆ wide.applicationProcedures := by
  intro p listed
  obtain ⟨c, isClass, isMethod⟩ := List.mem_flatMap.mp listed
  exact List.mem_flatMap.mpr ⟨c, narrows.applicationClasses isClass, isMethod⟩

theorem runnableEntry {p : Procedure} (entry : narrow.RunnableEntry p) : wide.RunnableEntry p := by
  obtain ⟨c, isClass, isConcrete, isEntry⟩ := entry
  exact ⟨c, narrows.applicationClasses isClass, isConcrete, narrows.threadEntry c ▸ isEntry⟩

theorem target? (name : Json) : narrow.target? name = wide.target? name := by
  unfold Program.target?
  split
  · rw [narrows.procedure]
  · rfl

theorem declaredEdges : narrow.declaredEdges ⊆ wide.declaredEdges := by
  intro e declared
  obtain ⟨p, listed, site, s, isPlaced, name, isTarget, target, found, rfl⟩ :=
    mem_declaredEdges.mp declared
  rw [narrows.target?] at found
  exact mem_declaredEdges.mpr ⟨p, narrows.applicationProcedures listed, site, s, isPlaced, name,
    isTarget, target, found, rfl⟩

theorem readable (readable : wide.Readable) : narrow.Readable where
  named := by
    unfold Named
    rw [narrows.classes]
    exact readable.named
  targets p listed s isStatement name isTarget := by
    have resolves := readable.targets p (narrows.applicationProcedures listed) s isStatement name
      isTarget
    rw [resolves_iff] at resolves ⊢
    rwa [narrows.target?]
  entry := by
    rw [congrArg Config.entrySubsignature narrows.config.settings]
    exact readable.entry

/-- What is still application code declares the same edges as before. -/
theorem mem_declaredEdges_at (coherent : wide.Coherent) (named : wide.Named) {p : Procedure}
    (listed : p ∈ narrow.applicationProcedures) {position : Nat} {e : CallEdge}
    (atSite : e.site = p.site position) : e ∈ narrow.declaredEdges ↔ e ∈ wide.declaredEdges := by
  refine ⟨fun declared => narrows.declaredEdges declared, fun declared => ?_⟩
  obtain ⟨q, qListed, site, s, isPlaced, name, isTarget, target, found, rfl⟩ :=
    mem_declaredEdges.mp declared
  obtain ⟨position', ofCaller⟩ := Procedure.site_of_placed isPlaced
  have same : q = p := (coherent.knows_of_application named qListed).1.eq
    (coherent.knows_of_application named (narrows.applicationProcedures listed)).1
    (Procedure.signature_eq_of_site (ofCaller.symm.trans atSite))
  subst same
  rw [← narrows.target?] at found
  exact mem_declaredEdges.mpr ⟨q, listed, site, s, isPlaced, name, isTarget, target, found, rfl⟩

end Program.Narrows

/-! ## What the rules decide -/

theorem Inspecting.attempt_ofExcept {α : Type} (result : Except Fault α) (i : Inspection) :
    (ofExcept result : Inspecting α).attempt i = (result, i) := by
  cases result <;> rfl

/-- What a program that answers everything says about any value, whether or not it is a signature. -/
theorem Inspecting.attempt_procedure_eq {i : Inspection} (reliable : i.Reliable) (name : Json) :
    ((procedure name).attempt i).1 = name.asKey >>= fun _ => name.asText "startswith" >>=
      fun signature => (i.program.procedure signature).map Prod.fst := by
  simp only [procedure_eq, lookup, attempt_bind, attempt_ofExcept]
  cases keyed : name.asKey with
  | error fault => rfl
  | ok key =>
      simp only [attempt_ask, reliable.answer]
      cases name.asText "startswith" with
      | error fault => rfl
      | ok signature =>
          simp only [attempt_declared, bind, Except.bind]
          cases i.program.procedure signature with
          | error fault => rfl
          | ok found => rfl

section TwoPrograms

variable {i j : Inspection} (narrows : i.program.Narrows j.program) (reliable : i.Reliable)
  (reliableOther : j.Reliable)

include narrows reliable reliableOther

/-- Except for started threads, a rule decides in the same way if the call site has the same edges. -/
theorem DispatchRule.attempt_judge_of_narrows {rule : DispatchRule} (notStart : rule ≠ .start)
    {g h : CallGraph} {site : Site}
    (same : (h.edgesOutOf site).isEmpty = (g.edgesOutOf site).isEmpty)
    (entries others : List Procedure) (caller : Procedure) (s : Statement) :
    ((rule.judge { config := j.program.config, entries := others } h caller site s).attempt j).1 =
      ((rule.judge { config := i.program.config, entries } g caller site s).attempt i).1 := by
  unfold judge
  cases s.invokedMethod with
  | none => rfl
  | some method =>
      cases rule with
      | start => exact absurd rfl notStart
      | submit =>
          have sameSignatures := congrArg Config.submitSignatures narrows.config.settings
          dsimp only
          rw [sameSignatures]
          split
          · rw [attempt_submitted reliable rfl, attempt_submitted reliableOther rfl,
              narrows.submission]
          · rfl
      | fallback =>
          dsimp only
          rw [same]
          split
          · rw [Inspecting.attempt_map, Inspecting.attempt_map,
              Inspecting.attempt_procedure_eq reliable,
              Inspecting.attempt_procedure_eq reliableOther]
            simp only [narrows.procedure]
          · rfl

namespace Augmentation

theorem ruling_of_narrows {g h : CallGraph} {site : Site}
    (same : (h.edgesOutOf site).isEmpty = (g.edgesOutOf site).isEmpty)
    (entries others : List Procedure) (caller : Procedure) (s : Statement)
    (rules : List DispatchRule) :
    let narrow := ruling { config := j.program.config, entries := others } h j caller site s rules
    let wide := ruling { config := i.program.config, entries } g i caller site s rules
    narrow = wide ∨ narrow = .linked .start (others.filter (·.signature ≠ caller.signature)) ∧
      wide = .linked .start (entries.filter (·.signature ≠ caller.signature)) := by
  induction rules with
  | nil => exact .inl rfl
  | cons rule rest ih =>
      unfold ruling
      by_cases isStart : rule = .start
      · subst isStart
        have sameStarts : DispatchRule.starts j.program.config s =
            DispatchRule.starts i.program.config s := by
          simp only [DispatchRule.starts,
            congrArg Config.threadStartSignatures narrows.config.settings]
        simp only [DispatchRule.attempt_start, sameStarts]
        by_cases applies : DispatchRule.starts i.program.config s
        · exact .inr (by simp [applies])
        · simpa [applies] using ih
      · rw [DispatchRule.attempt_judge_of_narrows narrows reliable reliableOther isStart same
          entries others]
        split
        · exact ih
        · exact .inl rfl
        · exact .inl rfl
        · exact .inl rfl

/-- The walk gives a procedure that is still application code no edge that it had not before. -/
theorem visitEdges_of_narrows {g h : CallGraph} (indexed : g.Indexed) (indexedOther : h.Indexed)
    {p : Procedure}
    (same : ∀ e : CallEdge, (∃ position, e.site = p.site position) → (e ∈ h.edges ↔ e ∈ g.edges))
    (rules : List DispatchRule) :
    visitEdges rules (contextOf j.program.config (fresh j h)) h j p ⊆
      visitEdges rules (contextOf i.program.config (fresh i g)) g i p := by
  intro e isEdge
  obtain ⟨⟨site, s⟩, isCall, atSite⟩ := List.mem_flatMap.mp isEdge
  have calls : callsOf j p = callsOf i p := by
    simp only [callsOf, reliable.body, reliableOther.body]
  refine List.mem_flatMap.mpr ⟨(site, s), calls ▸ isCall, ?_⟩
  obtain ⟨body, -, -, isPlaced, -⟩ := body_of_calls isCall
  obtain ⟨position, isSite⟩ := Procedure.site_of_placed isPlaced
  have sameEdges (f : CallEdge) (there : f.site = site) : f ∈ h.edges ↔ f ∈ g.edges :=
    same f ⟨position, there.trans isSite⟩
  have sameEmpty : (h.edgesOutOf site).isEmpty = (g.edgesOutOf site).isEmpty := by
    refine Bool.eq_iff_iff.mpr ?_
    rw [indexed.isEmpty_edgesOutOf, indexedOther.isEmpty_edgesOutOf]
    exact ⟨fun none f isEdge there => none f ((sameEdges f there).mpr isEdge) there,
      fun none f isEdge there => none f ((sameEdges f there).mp isEdge) there⟩
  rw [mem_siteEdges] at atSite ⊢
  obtain ⟨rule, targets, decided, target, isTarget, isNew, rfl⟩ := atSite
  have isNewThere : g.hasEdge site target.signature = false := by
    rw [indexedOther.hasEdge_eq_false] at isNew
    rw [indexed.hasEdge_eq_false]
    exact fun f isEdge there => isNew f ((sameEdges f there).mpr isEdge) there
  rcases ruling_of_narrows narrows reliable reliableOther sameEmpty
      (Dispatch.runnableEntries i.program.config i).1
      (Dispatch.runnableEntries j.program.config j).1 p s rules with agree | ⟨starts, startsThere⟩
  · exact ⟨rule, targets, agree.symm.trans decided, target, isTarget, isNewThere, rfl⟩
  · -- A started thread may run fewer entries, but no others.
    cases starts.symm.trans decided
    obtain ⟨isEntry, other⟩ := List.mem_filter.mp isTarget
    rw [Dispatch.mem_runnableEntries reliableOther] at isEntry
    refine ⟨.start, _, startsThere, target, List.mem_filter.mpr ⟨?_, other⟩, isNewThere, rfl⟩
    exact (Dispatch.mem_runnableEntries reliable _ target).mpr (narrows.runnableEntry isEntry)

end Augmentation

end TwoPrograms

/-! ## Two analyses -/

namespace Analysis

/-- Whether an analysis counts at least what another one counts, for those of the given procedures from
    which it reaches no recursion. -/
def Covers (a b : Analysis) (procedures : List Procedure) : Prop :=
  ∀ p ∈ procedures, (∀ cycle ∈ a.cycles, ∀ q ∈ cycle, ¬ a.graph.Reaches p.signature q) →
    ∃ r r', a.store.propagated.get? p.signature = some r ∧
      b.store.propagated.get? p.signature = some r' ∧ r'.static ≤ r.static ∧ r'.approx ≤ r.approx

section Narrows

variable {i j : Inspection} (narrows : i.program.Narrows j.program) (noFailures : i.failures = [])
  (noFailuresOther : j.failures = []) (coherent : i.program.Coherent)
  (coherentOther : j.program.Coherent)

include narrows noFailures noFailuresOther coherent coherentOther

theorem Stages.edges_subset {built warned augmented priced : Inspection} {a b : Analysis}
    {built' warned' augmented' priced' : Inspection} {g h : CallGraph}
    (stages : Stages i a g built warned augmented priced)
    (stagesOther : Stages j b h built' warned' augmented' priced') :
    b.graph.edges ⊆ a.graph.edges := by
  have declared (e : CallEdge) : e ∈ g.edges ↔ e ∈ i.program.declaredEdges :=
    CallGraph.mem_edges_of_build coherent stages.builds e
  have declaredOther (e : CallEdge) : e ∈ h.edges ↔ e ∈ j.program.declaredEdges :=
    CallGraph.mem_edges_of_build coherentOther stagesOther.builds e
  intro e isEdge
  rw [stagesOther.mem_edges_visited noFailuresOther coherentOther] at isEdge
  rw [stages.mem_edges_visited noFailures coherent]
  rcases isEdge with isDeclared | ⟨wanted, p, listed, lacks⟩
  · exact .inl ((declared e).mpr (narrows.declaredEdges ((declaredOther e).mp isDeclared)))
  · refine .inr ⟨narrows.config.augments wanted, p, narrows.applicationProcedures listed, ?_⟩
    refine Augmentation.visitEdges_of_narrows
      (narrows.alike stages.alike.1.program stagesOther.alike.1.program)
      (stages.reliable noFailures coherent) (stagesOther.reliable noFailuresOther coherentOther)
      (stages.fits coherent).indexed (stagesOther.fits coherentOther).indexed ?_ _ lacks
    rintro f ⟨position, atSite⟩
    have named := (CallGraph.grown_of_build coherent stages.builds).2
    rw [declared, declaredOther]
    exact narrows.mem_declaredEdges_at coherent named listed atSite

/-- Whatever has a local cost under the narrower configuration has the same one under the wider, and
    no smaller propagated cost unless recursion is reached. -/
theorem covers_of_narrows {a b : Analysis} {after after' : Inspection}
    (returned : ofProgram i = .ok a after) (returnedOther : ofProgram j = .ok b after') :
    a.Covers b j.program.applicationProcedures ∧
      ∀ p ∈ j.program.applicationProcedures, ∃ r, a.store.locals.get? p.signature = some r ∧
        b.store.locals.get? p.signature = some r := by
  obtain ⟨g, built, warned, augmented, priced, stages⟩ := exists_stages returned
  obtain ⟨h, built', warned', augmented', priced', stagesOther⟩ := exists_stages returnedOther
  obtain ⟨start, counted, phases, -⟩ := stages.exists_phases noFailures coherent
  obtain ⟨start', counted', phasesOther, -⟩ :=
    stagesOther.exists_phases noFailuresOther coherentOther
  have fewer := stages.edges_subset narrows noFailures noFailuresOther coherent coherentOther
    stagesOther
  have named := (CallGraph.grown_of_build coherent stages.builds).2
  have namedOther := (CallGraph.grown_of_build coherentOther stagesOther.builds).2
  refine ⟨fun p listed away => ?_, fun p listed => ⟨p.localRecord, ?_, ?_⟩⟩
  · have listedWide := narrows.applicationProcedures listed
    have counts : i.program.Counts p := (coherent.knows_of_application named listedWide).2
    have countsOther : j.program.Counts p :=
      (coherentOther.knows_of_application namedOther listed).2
    obtain ⟨r, found⟩ := Option.isSome_iff_exists.mp
      (phases.isSome_propagated_iff.mpr ⟨p, rfl, counts, .inl listedWide⟩)
    obtain ⟨r', foundOther⟩ := Option.isSome_iff_exists.mp
      (phasesOther.isSome_propagated_iff.mpr ⟨p, rfl, countsOther, .inl listed⟩)
    have acyclic : a.graph.AcyclicFrom p.signature := by
      rwa [CallGraph.AcyclicFrom, ← phases.cycles]
    have acyclicOther := acyclic.mono fewer phasesOther.fits.indexed phases.fits.indexed
    have looks (q : Procedure) (into : start'.program.config.looksInto q = true) :
        start.program.config.looksInto q = true := by
      rw [phasesOther.later.program.config] at into
      rw [phases.later.program.config]
      exact narrows.config.looksInto into
    have le (c : Counter) : c.of r' ≤ c.of r := by
      rw [phases.of_propagated_eq (phases.knows_of_key (.inl listedWide)) acyclic found,
        phasesOther.of_propagated_eq (phasesOther.knows_of_key (.inl listed)) acyclicOther
          foundOther, ← phases.later.program.config, ← phasesOther.later.program.config]
      exact_mod_cast CallGraph.fullCost_le_of_fewer fewer phasesOther.fits phases.fits looks c
        acyclic
    exact ⟨r, r', found, foundOther, le .static, le .approx⟩
  · exact phases.locals_iff.mpr ⟨p, narrows.applicationProcedures listed, rfl, rfl⟩
  · exact phasesOther.locals_iff.mpr ⟨p, listed, rfl, rfl⟩

omit noFailures in
theorem returns_of_narrows {a : Analysis} {after : Inspection}
    (returned : ofProgram i = .ok a after) : ∃ b after', ofProgram j = .ok b after' := by
  have readable := narrows.readable (readable_of_returned coherent returned)
  exact ofProgram_returns ⟨noFailuresOther, coherentOther, readable.named⟩ readable

end Narrows

end Analysis

/-! ## The same program under another configuration -/

namespace Inspection

def under (i : Inspection) (config : Config) : Inspection :=
  { i with program := { i.program with config } }

/-- The same program, with or without augmentation. -/
def augmenting (i : Inspection) (wanted : Bool) : Inspection :=
  i.under { i.program.config with augmentCallGraph := .bool wanted }

/-- The same program with further library prefixes. -/
def excluding (i : Inspection) (prefixes : List Text) : Inspection :=
  i.under { i.program.config with
    libraryPrefixes := i.program.config.libraryPrefixes ++ prefixes }

end Inspection

namespace Program

/-- How a program is put together does not depend on its configuration. -/
theorem addClass_under (program : Program) (config : Config) (c : ClassDecl) :
    addClass { program with config } c =
      (program.addClass c).map fun added => { added with config } := by
  unfold addClass
  split <;> rfl

theorem addClasses_under {classes : List ClassDecl} {before after : Program} (config : Config)
    (added : classes.foldlM addClass before = .ok after) :
    classes.foldlM addClass { before with config } = .ok { after with config } := by
  induction classes generalizing before with
  | nil =>
      cases added
      rfl
  | cons c rest ih =>
      obtain ⟨middle, first, others⟩ := ok_of_exceptBind added
      simp only [List.foldlM_cons, addClass_under, first]
      exact ih others

theorem Built.under {program : Program} (built : program.Built) (config : Config) :
    Built { program with config } := by
  induction built with
  | ofClasses made distinct built => exact .ofClasses made distinct (addClasses_under config built)
  | @procedure before after signature p _ found ih =>
      have foundThere : Program.procedure { before with config } signature =
          .ok (p, { after with config }) := by
        unfold Program.procedure at found ⊢
        dsimp only
        split at found
        · cases found
          rfl
        · obtain ⟨q, made, others⟩ := ok_of_exceptBind found
          cases others
          rw [made]
          rfl
      exact ih.procedure foundThere
  | @depthMap before p _ known ih =>
      have depths : (Program.depthMap { before with config } p).2 =
          { (before.depthMap p).2 with config } := by
        unfold Program.depthMap
        dsimp only
        split <;> rfl
      exact depths ▸ ih.depthMap known

theorem narrows_under (program : Program) {wide narrow : Config} (narrows : wide.Narrows narrow) :
    Narrows { program with config := wide } { program with config := narrow } where
  config := narrows
  classes := rfl
  procedure signature := by simp only [map_fst_procedure]

end Program

namespace Config

theorem narrows_noAugment (config : Config) :
    Narrows { config with augmentCallGraph := .bool true }
      { config with augmentCallGraph := .bool false } where
  settings := rfl
  library isLibrary := isLibrary
  augments wanted := by cases wanted

theorem narrows_prefixes (config : Config) (prefixes : List Text) :
    config.Narrows { config with libraryPrefixes := config.libraryPrefixes ++ prefixes } where
  settings := rfl
  library {name} isLibrary := by
    rw [isLibraryClass, List.any_append]
    exact Bool.or_eq_true_iff.mpr (.inl isLibrary)
  augments wanted := wanted

end Config

namespace Analysis

theorem ensures_covers {i : Inspection} {wide narrow : Config} (built : i.program.Built)
    (noFailures : i.failures = []) (narrows : wide.Narrows narrow) :
    Ensures (i.under wide) fun a => ∃ b after, ofProgram (i.under narrow) = .ok b after ∧
      a.Covers b (i.under narrow).program.applicationProcedures ∧
      ∀ p ∈ (i.under narrow).program.applicationProcedures, ∃ r,
        a.store.locals.get? p.signature = some r ∧ b.store.locals.get? p.signature = some r := by
  have programs := i.program.narrows_under narrows
  have coherent := (built.under wide).coherent
  have coherentOther := (built.under narrow).coherent
  refine ⟨fun readable => ?_, fun {a after} returned => ?_⟩
  · exact ofProgram_returns (i := i.under wide) ⟨noFailures, coherent, readable.named⟩ readable
  · obtain ⟨b, after', returnedOther⟩ := returns_of_narrows (i := i.under wide)
      (j := i.under narrow) programs noFailures coherent coherentOther returned
    exact ⟨b, after', returnedOther, covers_of_narrows (i := i.under wide) (j := i.under narrow)
      programs noFailures noFailures coherent coherentOther returned returnedOther⟩

/-- Away from recursion, an analysis never counts less with augmentation than without it, and never
    more with further library prefixes than without them. What is still application code then has the
    same local cost as before. -/
theorem propagated_costs_are_monotone {i : Inspection} (built : i.program.Built)
    (noFailures : i.failures = []) (prefixes : List Text) :
    (Ensures (i.augmenting true) fun a => ∃ b after, ofProgram (i.augmenting false) = .ok b after ∧
      a.Covers b i.program.applicationProcedures) ∧
    Ensures i fun a => ∃ b after, ofProgram (i.excluding prefixes) = .ok b after ∧
      a.Covers b (i.excluding prefixes).program.applicationProcedures ∧
      ∀ p ∈ (i.excluding prefixes).program.applicationProcedures, ∃ r,
        a.store.locals.get? p.signature = some r ∧ b.store.locals.get? p.signature = some r := by
  refine ⟨?_, ensures_covers built noFailures (i.program.config.narrows_prefixes prefixes)⟩
  obtain ⟨returns, compares⟩ :=
    ensures_covers built noFailures i.program.config.narrows_noAugment
  refine ⟨returns, fun returned => ?_⟩
  obtain ⟨b, after, returnedOther, covers, -⟩ := compares returned
  exact ⟨b, after, returnedOther, covers⟩

/-- Starts a thread, and calls a helper in another package. -/
def layeredMain : Procedure where
  declaringClass := .text "app.Main"
  subsignature := .text "void main()"
  body := some [
    { kind := .invoke, method := some (.text "<java.lang.Thread: void start()>")
      targets := some [] },
    { kind := .invoke, method := some (.text "<app.util.Helper: void help()>"), index := .int 1 }]

/-- Calls library code once. -/
def layeredLeaf (className subsignature : Text) : Procedure where
  declaringClass := .text className
  subsignature := .text subsignature
  body := some [{ kind := .invoke, method := some (.text "<java.io.Console: void flush()>") }]

def layeredClasses : List ClassDecl := [
  { name := .text "app.Main", methods := [layeredMain] },
  { name := .text "app.Task", interfaces := [.text "java.lang.Runnable"]
    methods := [layeredLeaf "app.Task" "void run()"] },
  { name := .text "app.util.Helper", methods := [layeredLeaf "app.util.Helper" "void help()"] }]

def layered : Inspection where
  program := {
    classes := layeredClasses.foldl (fun table c => table.insert c.name c) .empty
    procedures := Program.fileAll .empty (layeredClasses.flatMap (·.methods)) }

theorem built_layered : layered.program.Built := by
  have made : ∀ c ∈ layeredClasses, ClassDecl.make c c.methods = .ok c := by
    intro c isClass
    fin_cases isClass <;> cbv
  have loaded : Program.ofClasses {} layeredClasses = .ok layered.program := by cbv
  exact .ofClasses (fun c isClass => ⟨c, c.methods, made c isClass⟩) (by decide) loaded

/-- The main method counts its own two calls, the one in the thread and the one in the helper. Without
    augmentation it loses the thread, and with a further prefix the helper. -/
theorem propagated_costs_are_monotone_of_layers :
    ∃ a b c after after' after'', ofProgram layered = .ok a after ∧ a.cycles = [] ∧
      ofProgram (layered.augmenting false) = .ok b after' ∧
      a.Covers b layered.program.applicationProcedures ∧
      ofProgram (layered.excluding ["app.util"]) = .ok c after'' ∧
      a.Covers c (layered.excluding ["app.util"]).program.applicationProcedures ∧
      [a, b, c].map (fun analysis => (analysis.store.propagated.get? layeredMain.signature).map
        CostRecord.static) = [some 4, some 3, some 3] := by
  obtain ⟨a, b, c, after, after', after'', returned, acyclic, without, excluded, costs⟩ :
      ∃ a b c after after' after'', ofProgram layered = .ok a after ∧ a.cycles = [] ∧
        ofProgram (layered.augmenting false) = .ok b after' ∧
        ofProgram (layered.excluding ["app.util"]) = .ok c after'' ∧
        [a, b, c].map (fun analysis => (analysis.store.propagated.get? layeredMain.signature).map
          CostRecord.static) = [some 4, some 3, some 3] :=
    ⟨_, _, _, _, _, _, by cbv, by cbv, by cbv, by cbv, by cbv⟩
  obtain ⟨⟨-, augments⟩, -, excludes⟩ :=
    propagated_costs_are_monotone built_layered rfl ["app.util"]
  obtain ⟨b', afterB, isB, coversB⟩ := augments returned
  obtain ⟨c', afterC, isC, coversC, -⟩ := excludes returned
  cases without.symm.trans isB
  cases excluded.symm.trans isC
  exact ⟨a, b, c, after, after', after'', returned, acyclic, without, coversB, excluded, coversC,
    costs⟩

end Analysis

end CallWeight
