import CallWeight.Proofs.AnalysisContents
import CallWeight.Proofs.Recursion
import CallWeight.Proofs.ReorderedDocuments

/-! # Order independence

In which order a description lists its classes and their methods decides where every part of an
analysis begins: which edges are added first, which procedures are visited first, at which end a call
cycle is entered. What comes out does not depend on it, except for the propagated costs of procedures
that lead into a cycle. The argument is the same for every part: what it leaves behind was read off
the program beforehand, up to the order, and reordered programs agree on what is read off.
-/

namespace CallWeight

/-! ## Reordered programs -/

namespace Program.Reordered

variable {first second : Program} (reordered : first.Reordered second)

include reordered

theorem target? (name : Json) : second.target? name = first.target? name := by
  unfold Program.target?
  split
  · rw [reordered.procedure]
  · rfl

theorem mem_declaredEdges (e : CallEdge) :
    e ∈ second.declaredEdges ↔ e ∈ first.declaredEdges := by
  simp only [Program.mem_declaredEdges, reordered.target?,
    reordered.applicationProcedures.mem_iff]

theorem readable (readable : first.Readable) : second.Readable where
  named d isClass := by
    obtain ⟨c, isListed, same⟩ := reordered.symm.sameBare.exists_bare isClass
    obtain ⟨name, isName⟩ := readable.named c isListed
    exact ⟨name, (ClassDecl.bare_eq_iff.mp same).1 ▸ isName⟩
  targets p listed s isStatement name isTarget := by
    have resolves := readable.targets p (reordered.applicationProcedures.mem_iff.mpr listed) s
      isStatement name isTarget
    rw [resolves_iff] at resolves ⊢
    rwa [reordered.target?]
  entry := reordered.config ▸ readable.entry

/-! ### The same issues -/

theorem classIssue? {c d : ClassDecl} (same : c.Reordered d) :
    second.classIssue? d = first.classIssue? c := by
  simp only [Program.classIssue?, same.isInterface, reordered.threadEntry same,
    ClassDecl.unclassified, same.name]

theorem submission (caller : Procedure) (s : Statement) :
    second.submission caller s = first.submission caller s := by
  unfold Program.submission
  cases s.firstArgType with
  | none => rfl
  | some type =>
      dsimp only
      cases type.asKey with
      | error fault => rfl
      | ok name =>
          have related := reordered.class? name
          simp only [bind, Except.bind]
          generalize first.class? name = c at related ⊢
          generalize second.class? name = d at related ⊢
          cases related with
          | none => rfl
          | some same =>
              simp only [same.isInterface, reordered.entryPoint same, reordered.config]

theorem unclearIssues (p : Procedure) : second.unclearIssues p = first.unclearIssues p := by
  simp only [Program.unclearIssues, siteIssues, reordered.submission, reordered.config]

theorem filterMap_classIssue? {classes others : List ClassDecl}
    (related : List.Forall₂ ClassDecl.Reordered classes others) :
    others.filterMap second.classIssue? = classes.filterMap first.classIssue? := by
  induction related with
  | nil => rfl
  | cons same _ ih => simp only [List.filterMap_cons, reordered.classIssue? same, ih]

theorem augmentationIssues : first.augmentationIssues.Perm second.augmentationIssues := by
  obtain ⟨middle, perm, related⟩ := reordered.applicationClasses
  unfold Program.augmentationIssues
  rw [reordered.config]
  split
  · rw [reordered.filterMap_classIssue? related, funext reordered.unclearIssues]
    exact (perm.filterMap _).append (reordered.applicationProcedures.flatMap_right _)
  · exact .refl _

end Program.Reordered

/-! ## Graphs with the same edges -/

namespace CallGraph

variable {g h : CallGraph} (same : g.edges.Perm h.edges)

/-- A cycle has whatever reaches one of its members and is reached by it. -/
theorem Indexed.mem_cycle_iff (indexed : g.Indexed) {c : List Text} (isCycle : c ∈ g.cycles)
    {x : Text} (xIn : x ∈ c) (y : Text) : y ∈ c ↔ g.Reaches x y ∧ g.Reaches y x := by
  have isComponent := (List.mem_filter.mp isCycle).1
  constructor
  · intro yIn
    exact ⟨indexed.components_connected isComponent xIn yIn,
      indexed.components_connected isComponent yIn xIn⟩
  · rintro ⟨forth, back⟩
    -- Going back, around the cycle and forth again, the other one is recursive, too.
    have recurs : g.Recurs y :=
      .trans_right back ((indexed.recurs_of_mem_cycles isCycle xIn).trans_left forth)
    obtain ⟨d, isOther, yIn⟩ := indexed.exists_cycle_of_recurs recurs
    exact (indexed.cycle_eq_iff isCycle isOther xIn yIn).mpr ⟨forth, back⟩ ▸ yIn

include same

theorem calls_of_perm : h.Calls = g.Calls := by
  funext x y
  simp only [Calls, same.mem_iff]

theorem reaches_of_perm : h.Reaches = g.Reaches := by
  unfold Reaches
  rw [calls_of_perm same]

theorem exists_cycle_of_perm (indexed : g.Indexed) (indexedOther : h.Indexed) {c : List Text}
    (isCycle : c ∈ g.cycles) : ∃ d ∈ h.cycles, ∀ x, x ∈ d ↔ x ∈ c := by
  have inhabited : c ≠ [] := by
    rintro rfl
    exact indexed.nil_notMem_components (List.mem_filter.mp isCycle).1
  obtain ⟨x, xIn⟩ := List.exists_mem_of_ne_nil c inhabited
  have recurs : h.Recurs x := by
    rw [Recurs, calls_of_perm same]
    exact indexed.recurs_of_mem_cycles isCycle xIn
  obtain ⟨d, isOther, xInOther⟩ := indexedOther.exists_cycle_of_recurs recurs
  refine ⟨d, isOther, fun y => ?_⟩
  rw [indexedOther.mem_cycle_iff isOther xInOther, indexed.mem_cycle_iff isCycle xIn,
    reaches_of_perm same]

theorem edgesOutOf_perm (indexed : g.Indexed) (indexedOther : h.Indexed) (site : Site) :
    (g.edgesOutOf site).Perm (h.edgesOutOf site) := by
  rw [indexed.outOf, indexedOther.outOf]
  exact same.filter _

theorem costWithin_of_perm (indexed : g.Indexed) (indexedOther : h.Indexed) (config : Config)
    (c : Counter) (n : Nat) (p : Procedure) :
    h.costWithin config c n p = g.costWithin config c n p := by
  induction n generalizing p with
  | zero => rfl
  | succ n ih =>
      have atSite (position : Nat) :
          ((h.edgesOutOf (p.site position)).map fun e => h.costWithin config c n e.target).sum =
            ((g.edgesOutOf (p.site position)).map fun e => g.costWithin config c n e.target).sum := by
        rw [funext fun e : CallEdge => ih e.target]
        exact ((edgesOutOf_perm same indexed indexedOther _).map _).sum_eq.symm
      simp only [costWithin, atSite]

omit same in
/-- Following calls through more edges than there are components adds nothing. -/
theorem costWithin_eq_fullCost {program : Program} (fits : g.Fits program) {c : Counter}
    {p : Procedure} (acyclic : g.AcyclicFrom p.signature) {n : Nat}
    (deep : g.components.length ≤ n) :
    g.costWithin program.config c n p = g.fullCost program.config c p := by
  induction n, deep using Nat.le_induction with
  | base => rfl
  | succ n deep ih =>
      rw [costWithin_succ_eq fits acyclic (Nat.le_trans (g.rank_le _) deep), ih]

theorem acyclicFrom_of_perm (indexed : g.Indexed) (indexedOther : h.Indexed) {x : Text}
    (acyclic : g.AcyclicFrom x) : h.AcyclicFrom x := by
  intro d isCycle y inside
  obtain ⟨c, isCycleBefore, members⟩ :=
    exists_cycle_of_perm same.symm indexedOther indexed isCycle
  rw [reaches_of_perm same]
  exact acyclic c isCycleBefore y ((members y).mpr inside)

theorem fullCost_of_perm {program other : Program} (fits : g.Fits program)
    (fitsOther : h.Fits other) (config : other.config = program.config) (c : Counter)
    {p : Procedure} (acyclic : g.AcyclicFrom p.signature) :
    h.fullCost program.config c p = g.fullCost program.config c p := by
  have acyclicOther := acyclicFrom_of_perm same fits.indexed fitsOther.indexed acyclic
  -- The two graphs may number their components differently, so calls are followed far enough for both.
  let n := max g.components.length h.components.length
  calc h.fullCost program.config c p
    _ = h.costWithin program.config c n p := by
        rw [← config]
        exact (costWithin_eq_fullCost fitsOther acyclicOther (Nat.le_max_right _ _)).symm
    _ = g.costWithin program.config c n p :=
        costWithin_of_perm same fits.indexed fitsOther.indexed _ c n p
    _ = g.fullCost program.config c p :=
        costWithin_eq_fullCost fits acyclic (Nat.le_max_left _ _)

theorem mem_callEdges_of_perm (indexed : g.Indexed) (indexedOther : h.Indexed) {p : Procedure}
    {e : CallEdge} : e ∈ p.callEdges h ↔ e ∈ p.callEdges g := by
  simp only [Procedure.callEdges, List.mem_flatMap,
    (edgesOutOf_perm same indexed indexedOther _).mem_iff]

end CallGraph

/-! ## Analyses -/

/-- What reading guarantees about an inspection in which no question fails. -/
structure Inspection.Sound (i : Inspection) : Prop where
  noFailures : i.failures = []
  coherent : i.program.Coherent
  bodies : ∀ p ∈ i.program.applicationProcedures, SoundBody p.body
  distinct : (i.program.applicationProcedures.map (·.signature)).Nodup

theorem Description.sound_of_read {config : Config} {document : Json} {log log' : Log}
    {i : Inspection} (read : program config document log = .ok i.program log')
    (distinct : ((i.program.classes.values.flatMap (·.methods)).map (·.signature)).Nodup)
    (noFailures : i.failures = []) : i.Sound where
  noFailures
  coherent := (built_program read distinct).coherent
  bodies _ listed := soundBody_of_program read listed
  distinct := Program.nodup_applicationProcedures distinct

namespace Analysis

/-- Whether some signatures make up a recursive set. -/
def HasCycle (a : Analysis) (members : Set Text) : Prop :=
  ∃ cycle ∈ a.cycles, ∀ x, x ∈ cycle ↔ x ∈ members

/-- Whether two analyses agree, except for the order of what they list and the propagated costs of
    procedures from which recursion is reached. -/
structure Agrees (a b : Analysis) : Prop where
  edges : a.graph.edges.Perm b.graph.edges
  cycles : ∀ members, a.HasCycle members ↔ b.HasCycle members
  locals : ∀ signature, b.store.locals.get? signature = a.store.locals.get? signature
  propagatedKeys : ∀ signature, (b.store.propagated.get? signature).isSome ↔
    (a.store.propagated.get? signature).isSome
  externalKeys : ∀ signature, (b.store.external.get? signature).isSome ↔
    (a.store.external.get? signature).isSome
  propagated : ∀ {signature r r'},
    (∀ cycle ∈ a.cycles, ∀ q ∈ cycle, ¬ a.graph.Reaches signature q) →
    a.store.propagated.get? signature = some r → b.store.propagated.get? signature = some r' →
    r'.static = r.static ∧ r'.approx = r.approx
  issues : a.issues.Perm b.issues

section Reordered

variable {i j : Inspection} (reordered : i.program.Reordered j.program) (sound : i.Sound)
  (soundOther : j.Sound)

include reordered sound soundOther

/-- Reordered programs have the same edges in the end. -/
theorem Stages.edges_perm {built warned augmented priced : Inspection} {a b : Analysis}
    {built' warned' augmented' priced' : Inspection} {g h : CallGraph}
    (stages : Stages i a g built warned augmented priced)
    (stagesOther : Stages j b h built' warned' augmented' priced')
    (indexed : a.graph.Indexed) (indexedOther : b.graph.Indexed) :
    a.graph.edges.Perm b.graph.edges := by
  have declared (e : CallEdge) : e ∈ h.edges ↔ e ∈ g.edges := by
    rw [CallGraph.mem_edges_of_build sound.coherent stages.builds,
      CallGraph.mem_edges_of_build soundOther.coherent stagesOther.builds,
      reordered.mem_declaredEdges]
  refine (List.perm_ext_iff_of_nodup indexed.nodup_edges indexedOther.nodup_edges).mpr fun e => ?_
  rw [stages.mem_edges sound.noFailures sound.coherent sound.bodies,
    stagesOther.mem_edges soundOther.noFailures soundOther.coherent soundOther.bodies, declared,
    reordered.config]
  refine or_congr_right (and_congr_right fun _ => exists_congr fun p => ?_)
  refine and_congr reordered.applicationProcedures.mem_iff ⟨reordered.lacks declared, ?_⟩
  exact reordered.symm.lacks fun e => (declared e).symm

/-- Reordered programs have the same issues after the augmentation. -/
theorem Stages.issues_perm {built warned augmented priced : Inspection} {a b : Analysis}
    {built' warned' augmented' priced' : Inspection} {g h : CallGraph}
    (stages : Stages i a g built warned augmented priced)
    (stagesOther : Stages j b h built' warned' augmented' priced')
    (issues : i.issues.Perm j.issues) : augmented.issues.Perm augmented'.issues := by
  have recorded :=
    stages.issues_augmented sound.noFailures sound.coherent sound.bodies sound.distinct
  have recordedOther := stagesOther.issues_augmented soundOther.noFailures soundOther.coherent
    soundOther.bodies soundOther.distinct
  exact recorded.trans ((issues.append reordered.augmentationIssues).trans recordedOther.symm)

end Reordered

theorem hasCycle_of_perm {a b : Analysis} (edges : a.graph.edges.Perm b.graph.edges)
    (indexed : a.graph.Indexed) (indexedOther : b.graph.Indexed)
    (cycles : a.cycles = a.graph.cycles) (cyclesOther : b.cycles = b.graph.cycles)
    {members : Set Text} (has : a.HasCycle members) : b.HasCycle members := by
  obtain ⟨cycle, isCycle, isMembers⟩ := has
  rw [cycles] at isCycle
  obtain ⟨other, isOther, sameMembers⟩ :=
    CallGraph.exists_cycle_of_perm edges indexed indexedOther isCycle
  exact ⟨other, cyclesOther ▸ isOther, fun x => (sameMembers x).trans (isMembers x)⟩

/-- Whatever may have a propagated cost is known. -/
theorem Phases.knows_of_key {i start : Inspection} {a : Analysis} {counted : Costs}
    (phases : Phases i a start counted) {p : Procedure}
    (isKey : p ∈ i.program.applicationProcedures ∨
      ∃ q ∈ i.program.applicationProcedures, ∃ e ∈ q.callEdges a.graph, e.target = p) :
    start.program.Knows p := by
  rcases isKey with listed | ⟨q, -, e, isCall, rfl⟩
  · rw [← phases.later.program.applicationProcedures] at listed
    exact (phases.reliable.coherent.knows_of_application phases.reliable.named listed).1
  · obtain ⟨position, -, leaves⟩ := List.mem_flatMap.mp isCall
    exact phases.fits.knows e (phases.fits.indexed.mem_edgesOutOf.mp leaves).1

section TwoRuns

variable {i j start start' : Inspection} {a b : Analysis} {counted counted' : Costs}
  (phases : Phases i a start counted) (phasesOther : Phases j b start' counted')
  (reordered : i.program.Reordered j.program) (edges : a.graph.edges.Perm b.graph.edges)

include reordered

theorem counts_iff (p : Procedure) : j.program.Counts p ↔ i.program.Counts p := by
  rw [Program.Counts, reordered.config, Program.Counts]

include phases phasesOther

theorem locals_of_reordered (signature : Text) :
    b.store.locals.get? signature = a.store.locals.get? signature := by
  refine Option.ext fun r => ?_
  rw [phases.locals_iff, phasesOther.locals_iff]
  simp only [reordered.applicationProcedures.mem_iff]

include edges

omit reordered in
theorem mem_callEdges_iff {p : Procedure} {e : CallEdge} :
    e ∈ p.callEdges b.graph ↔ e ∈ p.callEdges a.graph :=
  CallGraph.mem_callEdges_of_perm edges phases.fits.indexed phasesOther.fits.indexed

theorem propagatedKeys_of_reordered (signature : Text) :
    (b.store.propagated.get? signature).isSome ↔ (a.store.propagated.get? signature).isSome := by
  rw [phases.isSome_propagated_iff, phasesOther.isSome_propagated_iff]
  simp only [reordered.applicationProcedures.mem_iff, counts_iff reordered,
    mem_callEdges_iff phases phasesOther edges]

theorem externalKeys_of_reordered (signature : Text) :
    (b.store.external.get? signature).isSome ↔ (a.store.external.get? signature).isSome := by
  rw [phases.isSome_external_iff, phasesOther.isSome_external_iff]
  simp only [reordered.applicationProcedures.mem_iff, counts_iff reordered,
    mem_callEdges_iff phases phasesOther edges]

/-- Away from recursion a propagated cost adds up the same calls in both runs. -/
theorem propagated_of_reordered {signature : Text} {r r' : CostRecord}
    (acyclic : a.graph.AcyclicFrom signature)
    (found : a.store.propagated.get? signature = some r)
    (foundOther : b.store.propagated.get? signature = some r') :
    r'.static = r.static ∧ r'.approx = r.approx := by
  obtain ⟨p, rfl, -, isKey⟩ := phases.isSome_propagated_iff.mp (Option.isSome_of_eq_some found)
  have known := phases.knows_of_key isKey
  have knownOther := phasesOther.knows_of_key (p := p) (by
    simpa only [reordered.applicationProcedures.mem_iff,
      mem_callEdges_iff phases phasesOther edges] using isKey)
  have acyclicOther := CallGraph.acyclicFrom_of_perm edges phases.fits.indexed
    phasesOther.fits.indexed acyclic
  have sameConfig : start'.program.config = start.program.config := by
    rw [phasesOther.later.program.config, reordered.config, phases.later.program.config]
  have equal (c : Counter) : c.of r' = c.of r := by
    rw [phases.of_propagated_eq known acyclic found,
      phasesOther.of_propagated_eq knownOther acyclicOther foundOther, reordered.config,
      ← phases.later.program.config, CallGraph.fullCost_of_perm edges phases.fits phasesOther.fits
        sameConfig c acyclic]
  exact ⟨equal .static, equal .approx⟩

end TwoRuns

theorem agrees_of_reordered {i j after after' : Inspection} {a b : Analysis}
    (reordered : i.program.Reordered j.program) (sound : i.Sound) (soundOther : j.Sound)
    (issues : i.issues.Perm j.issues) (returned : ofProgram i = .ok a after)
    (returnedOther : ofProgram j = .ok b after') : a.Agrees b := by
  obtain ⟨g, built, warned, augmented, priced, stages⟩ := exists_stages returned
  obtain ⟨h, built', warned', augmented', priced', stagesOther⟩ := exists_stages returnedOther
  obtain ⟨start, counted, phases, startIssues⟩ :=
    stages.exists_phases sound.noFailures sound.coherent
  obtain ⟨start', counted', phasesOther, startIssues'⟩ :=
    stagesOther.exists_phases soundOther.noFailures soundOther.coherent
  have indexed := phases.fits.indexed
  have indexedOther := phasesOther.fits.indexed
  have edges := stages.edges_perm reordered sound soundOther stagesOther indexed indexedOther
  refine
    { edges
      cycles := fun members => ⟨?_, ?_⟩
      locals := locals_of_reordered phases phasesOther reordered
      propagatedKeys := propagatedKeys_of_reordered phases phasesOther reordered edges
      externalKeys := externalKeys_of_reordered phases phasesOther reordered edges
      propagated := fun {signature r r'} away => ?_
      issues := ?_ }
  · exact hasCycle_of_perm edges indexed indexedOther phases.cycles phasesOther.cycles
  · exact hasCycle_of_perm edges.symm indexedOther indexed phasesOther.cycles phases.cycles
  · have acyclic : a.graph.AcyclicFrom signature := by
      rwa [CallGraph.AcyclicFrom, ← phases.cycles]
    exact propagated_of_reordered phases phasesOther reordered edges acyclic
  · rw [phases.issues_eq, phasesOther.issues_eq, startIssues, startIssues']
    exact (stages.issues_perm reordered sound soundOther stagesOther issues).append
      (reordered.applicationProcedures.flatMap_right _)

theorem returns_of_reordered {i j after : Inspection} {a : Analysis}
    (reordered : i.program.Reordered j.program) (sound : i.Sound) (soundOther : j.Sound)
    (returned : ofProgram i = .ok a after) : ∃ b after', ofProgram j = .ok b after' := by
  have readable := reordered.readable (readable_of_returned sound.coherent returned)
  exact ofProgram_returns ⟨soundOther.noFailures, soundOther.coherent, readable.named⟩ readable

/-- A description that lists its classes and their methods in another order is accepted too, and if no
    question fails its analysis returns in the same cases and agrees with the other one: on the edges,
    the recursive sets, the keys of the store, the local costs, the issues, and the propagated costs of
    all procedures from which no recursion is reached. No two methods may share a signature, and no
    two methods of a class may share a key, for of these a class keeps only the last. -/
theorem reordered_description_agrees {config : Config} {document other : Json} {log log' : Log}
    {i : Inspection} (read : Description.program config document log = .ok i.program log')
    (noFailures : i.failures = []) (distinct : Description.DistinctMethods document)
    (reordered : Description.Reordered document other) :
    ∃ loaded, (∀ before, ∃ after, Description.program config other before = .ok loaded after) ∧
      match ofProgram i, ofProgram { i with program := loaded } with
      | .ok a _, .ok b _ => a.Agrees b
      | .error _ _, .error _ _ => True
      | _, _ => False := by
  obtain ⟨signatures, loaded, gives, programs⟩ :=
    Description.exists_reordered read distinct reordered
  refine ⟨loaded, gives, ?_⟩
  obtain ⟨after, readOther⟩ := gives log
  have sound := Description.sound_of_read read signatures noFailures
  have soundOther : Inspection.Sound { i with program := loaded } := by
    refine Description.sound_of_read readOther ?_ noFailures
    obtain ⟨middle, perm, related⟩ := programs.classes
    have methods := (perm.flatMap_right _).trans (ClassDecl.perm_methods_of_reordered related)
    exact (methods.map _).nodup_iff.mp signatures
  have programsOther : i.program.Reordered ({ i with program := loaded } : Inspection).program :=
    programs
  cases returned : ofProgram i with
  | ok a after =>
      obtain ⟨b, after', returnedOther⟩ :=
        returns_of_reordered programsOther sound soundOther returned
      rw [returnedOther]
      exact agrees_of_reordered programsOther sound soundOther (.refl _) returned returnedOther
  | error fault after =>
      -- The faults may differ, since the other order may come across another one first.
      cases returnedOther : ofProgram { i with program := loaded } with
      | ok b after' =>
          obtain ⟨a, after'', again⟩ :=
            returns_of_reordered programsOther.symm soundOther sound returnedOther
          cases returned.symm.trans again
      | error fault after' => trivial

end Analysis

namespace Description

theorem ReorderedClass.refl (c : Json) : ReorderedClass c c := ⟨fun _ _ => rfl, .inl rfl⟩

/-- A description of a program with the given classes. -/
def listing (classes : List Json) : Json := .obj [("classes", .arr classes)]

/-- A description of a class with the given methods. -/
def classListing (name : String) (methods : List Json) : Json :=
  .obj [("name", .text name), ("methods", .arr methods)]

theorem reorderedClass_classListing (name : String) {methods others : List Json}
    (perm : methods.Perm others) :
    ReorderedClass (classListing name methods) (classListing name others) where
  fields key other := by
    have notMethods : (key == Text.ofString "methods") = false := beq_eq_false_iff_ne.mpr other
    simp [classListing, Json.field?, List.lookup, notMethods]
  methods := .inr ⟨methods, others, rfl, rfl, perm⟩

end Description

namespace Analysis

open Description

def sampleCaller : Json :=
  .obj [("subsignature", .text "void main()"), ("statements", .arr [
    .obj [("invoke", .text "<app.Main: void help()>")],
    .obj [("invoke", .text "<java.lang.Thread: void start()>"), ("targets", .arr [])]]),
    ("loops", .arr [.arr [.int 0]])]

def sampleHelper : Json :=
  .obj [("subsignature", .text "void help()"), ("statements", .arr [
    .obj [("invoke", .text "<java.io.Console: void flush()>")]])]

def sampleTask : Json :=
  .obj [("name", .text "app.Task"), ("interfaces", .arr [.text "java.lang.Runnable"]),
    ("methods", .arr [.obj [("subsignature", .text "void run()"), ("statements", .arr [])]])]

def sampleListing : Json :=
  listing [sampleTask, classListing "app.Main" [sampleCaller, sampleHelper]]

def sampleRelisting : Json :=
  listing [classListing "app.Main" [sampleHelper, sampleCaller], sampleTask]

/-- The two classes, and the two methods of one of them, listed the other way round. -/
theorem reordered_description_agrees_of_sample :
    ∃ first second log log' a b after after',
      program {} sampleListing #[] = .ok first log ∧
      program {} sampleRelisting #[] = .ok second log' ∧
      ofProgram { program := first } = .ok a after ∧
      ofProgram { program := second } = .ok b after' ∧
      a.graph.edges.map (·.kind) = [.direct, .direct, .threadStart] ∧ a.Agrees b := by
  have reordered : Reordered sampleListing sampleRelisting :=
    ⟨_, _, _, rfl, rfl, .swap _ _ [],
      .cons (reorderedClass_classListing _ (.swap _ _ [])) (.cons (.refl _) .nil)⟩
  have distinct : DistinctMethods sampleListing := ⟨by decide, by decide⟩
  obtain ⟨first, log, a, after, read, returned, kinds⟩ : ∃ first log a after,
      program {} sampleListing #[] = .ok first log ∧
      ofProgram { program := first } = .ok a after ∧
      a.graph.edges.map (·.kind) = [.direct, .direct, .threadStart] :=
    ⟨_, _, _, _, by cbv, by cbv, by cbv⟩
  obtain ⟨second, gives, agree⟩ :=
    reordered_description_agrees (i := { program := first }) read rfl distinct reordered
  obtain ⟨log', readOther⟩ := gives #[]
  rw [returned] at agree
  cases returnedOther : ofProgram { program := second } with
  | ok b after' =>
      rw [returnedOther] at agree
      exact ⟨first, second, log, log', a, b, after, after', read, readOther, returned,
        returnedOther, kinds, agree⟩
  | error fault after' =>
      rw [returnedOther] at agree
      exact agree.elim

/-- A method whose subsignature is a value that need not be a text. -/
def emptyMethod (subsignature : Json) : Json :=
  .obj [("subsignature", subsignature), ("statements", .arr [])]

/-- The number one and the truth are one key, so a class keeps the method that is listed last, although
    the two have different signatures. -/
theorem last_method_of_key_is_kept :
    let document := listing [classListing "app.A" [emptyMethod (.bool true), emptyMethod (.int 1)]]
    let other := listing [classListing "app.A" [emptyMethod (.int 1), emptyMethod (.bool true)]]
    ((classDocuments document).flatMap classSignatures).Nodup ∧ Reordered document other ∧
      ∃ first second log log' a b after after',
        program {} document #[] = .ok first log ∧ program {} other #[] = .ok second log' ∧
        ofProgram { program := first } = .ok a after ∧
        ofProgram { program := second } = .ok b after' ∧
        a.store.locals.keys = [("<app.A: 1>" : Text)] ∧
        b.store.locals.keys = [("<app.A: True>" : Text)] := by
  refine ⟨by decide, ?_, ?_⟩
  · exact ⟨_, _, _, rfl, rfl, .refl _,
      .cons (reorderedClass_classListing _ (.swap _ _ [])) .nil⟩
  · exact ⟨_, _, _, _, _, _, _, _, by cbv, by cbv, by cbv, by cbv, by cbv, by cbv⟩

end Analysis

end CallWeight
