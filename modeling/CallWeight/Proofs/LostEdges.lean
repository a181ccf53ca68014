import CallWeight.Proofs.AugmentationWalk

/-! # What failing questions cost an augmentation

Failures only make an augmentation lose edges. Every edge that it would have added without them and did
not add is accounted for by an issue: the body of the caller could not be retrieved, the call site
could not be classified, or, if a started thread would have run the target, none of the classes whose
entry the target is could be classified.
-/

namespace CallWeight

namespace Augmentation

variable {i j : Inspection} {g : CallGraph}

theorem callsOf_of_clearer (clearer : i.Clearer j) {p : Procedure}
    {body : Option (List Statement)} (answered : i.body p = .ok body) :
    callsOf j p = callsOf i p := by
  unfold callsOf
  rw [answered, clearer.body answered]

theorem entries_of_clearer (clearer : i.Clearer j) (config : Config) :
    (Dispatch.runnableEntries config i).1 ⊆ (Dispatch.runnableEntries config j).1 := by
  intro p listed
  obtain ⟨c, isClass, isConcrete, answered⟩ :=
    (Dispatch.mem_entriesOf config _ (.refl i) p).mp listed
  refine (Dispatch.mem_entriesOf config _ (.refl j) p).mpr ⟨c, ?_, isConcrete, ?_⟩
  · rwa [clearer.program.applicationClasses]
  · exact (Dispatch.steady_entryOf c).stable clearer answered

theorem config_contextOf (config : Config) :
    (contextOf config (fresh j g)).config = (contextOf config (fresh i g)).config := rfl

section Site

variable {context other : DispatchRule.Context} {caller : Procedure} {site : Site} {s : Statement}
  {rules : List DispatchRule} {e : CallEdge} (clearer : i.Clearer j)
  (sameConfig : other.config = context.config)

include clearer sameConfig

theorem siteEdges_of_clearer (more : context.entries ⊆ other.entries)
    (isEdge : e ∈ siteEdges context g i caller site s rules) :
    e ∈ siteEdges other g j caller site s rules := by
  obtain ⟨config, entries⟩ := context
  obtain ⟨config, others⟩ := other
  cases sameConfig
  unfold siteEdges at isEdge ⊢
  rcases ruling_of_clearer config g clearer entries others caller site s rules with
    ignored | same | ⟨starts, startsToo⟩
  · rw [ignored] at isEdge
    cases isEdge
  · rwa [← same]
  · rw [starts] at isEdge
    rw [startsToo]
    exact List.map_subset _ (List.filter_subset _ (List.filter_subset _ more)) isEdge

/-- An edge that a call site does not get although it gets it where fewer questions fail. -/
theorem lost_of_clearer (isEdge : e ∈ siteEdges other g j caller site s rules)
    (isLost : e ∉ siteEdges context g i caller site s rules) :
    sitePlaces context g i caller site s rules = [s.unclassified caller] ∨
      e.kind = .threadStart ∧ e.target ∈ other.entries ∧ e.target ∉ context.entries := by
  obtain ⟨config, entries⟩ := context
  obtain ⟨config, others⟩ := other
  cases sameConfig
  unfold siteEdges at isEdge isLost
  unfold sitePlaces
  rcases ruling_of_clearer config g clearer entries others caller site s rules with
    ignored | same | ⟨starts, startsToo⟩
  · exact .inl (by rw [ignored])
  · rw [same] at isLost
    exact absurd isEdge isLost
  · rw [startsToo] at isEdge
    rw [starts] at isLost
    obtain ⟨target, listed, rfl⟩ := List.mem_map.mp isEdge
    obtain ⟨isTarget, isNew⟩ := List.mem_filter.mp listed
    obtain ⟨isEntry, notCaller⟩ := List.mem_filter.mp isTarget
    refine .inr ⟨rfl, isEntry, fun isKnown => isLost (List.mem_map_of_mem ?_)⟩
    exact List.mem_filter.mpr ⟨List.mem_filter.mpr ⟨isKnown, notCaller⟩, isNew⟩

end Site

theorem fields_of_siteEdges {context : DispatchRule.Context} {caller : Procedure} {site : Site}
    {s : Statement} {rules : List DispatchRule} {e : CallEdge}
    (isEdge : e ∈ siteEdges context g i caller site s rules) :
    e.source = caller ∧ e.site = site ∧ e.index = s.index := by
  obtain ⟨rule, targets, -, target, -, -, rfl⟩ := (mem_siteEdges ..).mp isEdge
  exact ⟨rfl, rfl, rfl⟩

/-- Whether the entry of an application class is a given procedure. -/
def Contributes (i : Inspection) (c : ClassDecl) (p : Procedure) : Prop :=
  c ∈ i.program.applicationClasses ∧ c.isInterface = false ∧
    (Dispatch.classEntry i.program.config c i).1 = some p

theorem contributes_iff {c : ClassDecl} {p : Procedure} :
    Contributes i c p ↔ c ∈ i.program.applicationClasses ∧ c.isInterface = false ∧
      ((Dispatch.entryOf c).attempt i).1 = .ok (some (some p)) := by
  unfold Contributes
  refine and_congr_right fun _ => and_congr_right fun _ => ?_
  cases answer : ((Dispatch.entryOf c).attempt i).1 with
  | error fault => simp [(Dispatch.classEntry_of_error answer).1]
  | ok entry =>
      rw [(Dispatch.classEntry_of_ok answer).1]
      simp [Option.join_eq_some_iff]

/-- What accounts for an edge that an augmentation would have added if no question had failed, among
    the issues that it recorded. -/
inductive Accounted (free : Inspection) (recorded : List Issue) (e : CallEdge) : Prop
  /-- The body of the caller could not be retrieved. -/
  | unretrieved {issue : Issue} (listed : issue ∈ recorded)
      (place : issue.place =
        ⟨"augment", .extractionFailure, some e.source.signature, .null⟩)
  /-- The call site could not be classified. -/
  | unclassified {issue : Issue} (listed : issue ∈ recorded)
      (place : issue.place =
        ⟨"augment", .classificationFailure, some e.source.signature, e.index⟩)
  /-- None of the classes whose entry the target is could be classified. -/
  | unknownEntry (kind : e.kind = .threadStart) (contributed : ∃ c, Contributes free c e.target)
      (classes : ∀ c, Contributes free c e.target → ∃ fault, c.unclassified fault ∈ recorded)

section Runs

variable (clearer : i.Clearer j) (coherent : i.program.Coherent) (named : i.program.Named)
  (fits : g.Fits i.program) (coherent' : j.program.Coherent) (named' : j.program.Named)
  (fits' : g.Fits j.program) (rules : List DispatchRule) (config : Config)

include clearer coherent named fits coherent' named' fits'

theorem added_of_clearer :
    (run rules config (fresh i g)).added ⊆ (run rules config (fresh j g)).added := by
  intro e isAdded
  obtain ⟨p, listed, isEdge⟩ := (mem_added_run rules config coherent named fits e).mp isAdded
  obtain ⟨call, isCall, atSite⟩ := List.mem_flatMap.mp isEdge
  obtain ⟨body, answered, -⟩ := body_of_calls isCall
  refine (mem_added_run rules config coherent' named' fits' e).mpr ⟨p, ?_, ?_⟩
  · rwa [clearer.program.applicationProcedures]
  · refine List.mem_flatMap.mpr ⟨call, ?_, ?_⟩
    · rwa [callsOf_of_clearer clearer answered]
    · exact siteEdges_of_clearer clearer (config_contextOf config)
        (entries_of_clearer clearer config) atSite

theorem accounted_of_clearer {issues : List Issue}
    (areIssues : (run rules config (fresh i g)).inspection.issues = i.issues ++ issues)
    {e : CallEdge} (isAdded : e ∈ (run rules config (fresh j g)).added)
    (isLost : e ∉ (run rules config (fresh i g)).added) : Accounted j issues e := by
  obtain ⟨unclassified, recorded, split, -, complete, places, -⟩ :=
    issues_run rules config coherent named fits
  rw [areIssues, List.append_assoc] at split
  obtain rfl := List.append_cancel_left split
  obtain ⟨p, listed, isEdge⟩ := (mem_added_run rules config coherent' named' fits' e).mp isAdded
  rw [clearer.program.applicationProcedures] at listed
  obtain ⟨call, isCall, atSite⟩ := List.mem_flatMap.mp isEdge
  obtain ⟨isSource, -, isIndex⟩ := fields_of_siteEdges atSite
  have noted : ∀ place ∈ visitPlaces rules (contextOf config (fresh i g)) g i p,
      ∃ issue ∈ unclassified ++ recorded, issue.place = place := by
    intro place isPlace
    obtain ⟨issue, isRecorded, about⟩ := List.mem_map.mp (places p listed isPlace)
    exact ⟨issue, List.mem_append_right _ isRecorded, about⟩
  cases answered : i.body p with
  | error fault =>
      obtain ⟨issue, isRecorded, about⟩ := noted p.unretrieved (by simp [visitPlaces, answered])
      exact .unretrieved isRecorded (isSource ▸ about)
  | ok body =>
      rw [callsOf_of_clearer clearer answered] at isCall
      have notHere : e ∉ siteEdges (contextOf config (fresh i g)) g i p call.1 call.2 rules := by
        intro atSiteToo
        exact isLost ((mem_added_run rules config coherent named fits e).mpr
          ⟨p, listed, List.mem_flatMap.mpr ⟨call, isCall, atSiteToo⟩⟩)
      rcases lost_of_clearer clearer (config_contextOf config) atSite notHere with
        ignored | ⟨isStart, isEntry, isUnknown⟩
      · obtain ⟨issue, isRecorded, about⟩ := noted (call.2.unclassified p) (by
          simp only [visitPlaces, answered]
          exact List.mem_flatMap.mpr ⟨call, isCall, by simp [ignored]⟩)
        refine .unclassified isRecorded ?_
        rw [isSource, isIndex]
        exact about
      · refine .unknownEntry isStart ?_ fun c contributes => ?_
        · obtain ⟨c, contributes⟩ := (Dispatch.mem_entriesOf config _ (.refl j) e.target).mp isEntry
          exact ⟨c, contributes_iff.mpr contributes⟩
        · obtain ⟨isClass, isConcrete, isAnswer⟩ := contributes_iff.mp contributes
          rw [clearer.program.applicationClasses] at isClass
          obtain ⟨fault, isUnclassified⟩ := complete c isClass isConcrete fun entry answer => by
            -- An answer would be the one that is given where fewer questions fail.
            have same := (Dispatch.steady_entryOf c).stable clearer answer
            rw [isAnswer] at same
            cases same
            exact isUnknown ((Dispatch.mem_entriesOf config _ (.refl i) e.target).mpr
              ⟨c, isClass, isConcrete, answer⟩)
          exact ⟨fault, List.mem_append_left _ isUnclassified⟩

end Runs

/-- Failures that are set after the call graph was built do not keep an augmentation from returning.
    They change no edge that was there, add no edge, and account for every edge that is missing. -/
theorem failures_lose_only_accounted_edges {start i : Inspection} {g : CallGraph}
    (built : start.program.Built) (isGraph : CallGraph.build start = .ok g i)
    (failures : List QueryFailure) :
    ∃ free kept issues freeAfter keptAfter,
      Session.step (.augment true none none)
          { inspection := { i with failures := [] }, graph := g } = (.ok (.edges free), freeAfter) ∧
      Session.step (.augment true none none) { inspection := { i with failures }, graph := g } =
        (.ok (.edges kept), keptAfter) ∧
      keptAfter.graph.edges = g.edges ++ kept ∧
      keptAfter.inspection.issues = i.issues ++ issues ∧
      kept ⊆ free ∧ ∀ e ∈ free, e ∉ kept → Accounted { i with failures := [] } issues e := by
  obtain ⟨grown, named⟩ := CallGraph.grown_of_build built.coherent isGraph
  have coherent := grown.later.program.coherent built.coherent
  have named := grown.later.program.named named
  have clearer : Inspection.Clearer { i with failures } { i with failures := [] } :=
    Inspection.clearer_of_noFailures (.refl _) rfl
  obtain ⟨freeAfter, freeStep, -⟩ := Session.step_augment (i := { i with failures := [] }) named g
  obtain ⟨keptAfter, keptStep, keptGraph, keptInspection⟩ :=
    Session.step_augment (i := { i with failures }) named g
  obtain ⟨unclassified, recorded, issues, -⟩ := issues_run (i := { i with failures })
    DispatchRule.all i.program.config coherent named grown.fits
  rw [List.append_assoc] at issues
  refine ⟨_, _, unclassified ++ recorded, _, _, freeStep, keptStep, ?_, ?_, ?_, fun e isFree isLost => ?_⟩
  · rw [keptGraph]
    exact edges_run (i := { i with failures }) _ _ coherent named grown.fits
  · rw [keptInspection]
    exact issues
  · exact added_of_clearer clearer coherent named grown.fits coherent named grown.fits _ _
  · exact accounted_of_clearer clearer coherent named grown.fits coherent named grown.fits _ _ issues
      isFree isLost

/-! ## A small program with a thread -/

/-- The entry of a runnable class, which calls nothing. -/
def sampleRun : Procedure where
  declaringClass := .text "app.Task"
  subsignature := .text "void run()"
  body := some []

/-- Starts a thread and does not say which. -/
def sampleStart : Procedure where
  declaringClass := .text "app.Main"
  subsignature := .text "void main()"
  body := some [{
    kind := .invoke
    method := some (.text "<java.lang.Thread: void start()>")
    targets := some [] }]

def sampleTask : ClassDecl where
  name := .text "app.Task"
  interfaces := [.text "java.lang.Runnable"]
  methods := [sampleRun]

def sampleMain : ClassDecl where
  name := .text "app.Main"
  methods := [sampleStart]

def sampleProgram : Program where
  classes := (OrderedMap.empty.insert sampleTask.name sampleTask).insert sampleMain.name sampleMain
  procedures := Program.fileAll .empty [sampleRun, sampleStart]

theorem built_sampleProgram : sampleProgram.Built := by
  have loaded : Program.ofClasses {} [sampleTask, sampleMain] = .ok sampleProgram := by cbv
  refine .ofClasses (fun c isClass => ?_) (by decide) loaded
  fin_cases isClass
  · exact ⟨sampleTask, [sampleRun], by cbv⟩
  · exact ⟨sampleMain, [sampleStart], by cbv⟩

/-- What the start of the thread may run. -/
def sampleEdge : CallEdge where
  source := sampleStart
  site := sampleStart.site 0
  index := .int 0
  target := sampleRun
  kind := .threadStart

/-- If the class of the entry cannot be classified, the edge to it is lost and accounted for. -/
theorem failures_lose_only_accounted_edges_of_task :
    ∃ i after issues, CallGraph.build { program := sampleProgram } = .ok {} i ∧
      Session.step (.augment true none none) { inspection := { i with failures :=
          [{ query := .runnable, key := .text "app.Task", message := "down" }] } } =
        (.ok (.edges []), after) ∧
      after.inspection.issues = i.issues ++ issues ∧
      Accounted { i with failures := [] } issues sampleEdge := by
  let outage : List QueryFailure :=
    [{ query := .runnable, key := .text "app.Task", message := "down" }]
  obtain ⟨i, isGraph, isFree, isKept⟩ : ∃ i,
      CallGraph.build { program := sampleProgram } = .ok {} i ∧
      (∃ after, Session.step (.augment true none none) { inspection := { i with failures := [] } } =
        (.ok (.edges [sampleEdge]), after)) ∧
      ∃ after, Session.step (.augment true none none)
        { inspection := { i with failures := outage } } = (.ok (.edges []), after) :=
    ⟨_, by cbv, ⟨_, by cbv⟩, _, by cbv⟩
  obtain ⟨free, kept, issues, freeAfter, keptAfter, freeStep, keptStep, -, areIssues, -, accounted⟩ :=
    failures_lose_only_accounted_edges built_sampleProgram isGraph outage
  obtain ⟨after, isFree⟩ := isFree
  obtain ⟨after, isKept⟩ := isKept
  cases isFree.symm.trans freeStep
  cases isKept.symm.trans keptStep
  exact ⟨i, keptAfter, issues, isGraph, keptStep, areIssues, accounted _ (by simp) (by simp)⟩

end Augmentation

end CallWeight
