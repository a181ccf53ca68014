import CallWeight.Proofs.Answers
import CallWeight.Proofs.GraphOrigin

/-! # What augmenting does at one call site

The rules decide about a call site by what the program answers and by the edges that leave the site. So
the decision can be read off the program and the graph as they were before the whole augmentation,
provided that no edge has been added to the site meanwhile. `ruling` is that decision, `siteEdges` the
edges and `sitePlaces` the issues that follow from it.
-/

namespace CallWeight

/-- Where an issue came up and what it is about, without its wording. -/
structure IssuePlace where
  phase : Text
  kind : IssueKind
  procedure : Option Text
  statement : Json

def Issue.place (issue : Issue) : IssuePlace where
  phase := issue.phase
  kind := issue.kind
  procedure := issue.procedure
  statement := issue.statement

/-- A call site that could not be classified. -/
def Statement.unclassified (s : Statement) (caller : Procedure) : IssuePlace where
  phase := "augment"
  kind := .classificationFailure
  procedure := some caller.signature
  statement := s.index

/-- The record of a class that could not be classified. -/
def ClassDecl.unclassified (c : ClassDecl) (fault : Fault) : Issue :=
  .ofFailure "augment" {
    kind := .classificationFailure
    message := "class " ++ c.name.display ++ " could not be classified as runnable"
    cause := some fault.toCause }

/-! ## Runnable entries -/

namespace Dispatch

open Inspecting

theorem classEntry_of_ok {config : Config} {c : ClassDecl} {i : Inspection}
    {entry : Option (Option Procedure)} (answer : ((entryOf c).attempt i).1 = .ok entry) :
    (classEntry config c i).1 = entry.join ∧ (classEntry config c i).2.issues = i.issues := by
  have silent := ((steady_entryOf c).quiet i).2
  unfold classEntry
  generalize (entryOf c).attempt i = result at answer silent
  obtain ⟨value, j⟩ := result
  subst answer
  cases entry with
  | none => exact ⟨rfl, silent⟩
  | some entry =>
      cases entry with
      | none => exact ⟨rfl, silent⟩
      | some p => exact ⟨rfl, silent⟩

theorem classEntry_of_error {config : Config} {c : ClassDecl} {i : Inspection} {fault : Fault}
    (answer : ((entryOf c).attempt i).1 = .error fault) :
    (classEntry config c i).1 = none ∧
      (classEntry config c i).2.issues = i.issues ++ [c.unclassified fault] := by
  have silent := ((steady_entryOf c).quiet i).2
  unfold classEntry
  generalize (entryOf c).attempt i = result at answer silent
  obtain ⟨value, j⟩ := result
  subst answer
  refine ⟨rfl, ?_⟩
  rw [← silent]
  rfl

theorem issues_classEntry (config : Config) (c : ClassDecl) (i : Inspection) :
    ∃ recorded, (classEntry config c i).2.issues = i.issues ++ recorded ∧
      (∀ issue ∈ recorded, (∀ entry, ((entryOf c).attempt i).1 ≠ .ok entry) ∧
        ∃ fault, issue = c.unclassified fault) ∧
      ((∀ entry, ((entryOf c).attempt i).1 ≠ .ok entry) →
        ∃ fault, c.unclassified fault ∈ recorded) := by
  cases answer : ((entryOf c).attempt i).1 with
  | ok entry =>
      refine ⟨[], by simp [(classEntry_of_ok answer).2], by simp, fun unanswered => ?_⟩
      exact absurd rfl (unanswered entry)
  | error fault =>
      refine ⟨[c.unclassified fault], (classEntry_of_error answer).2, ?_, ?_⟩
      · exact fun issue listed => ⟨by simp, fault, List.mem_singleton.mp listed⟩
      · exact fun _ => ⟨fault, List.mem_singleton_self _⟩

variable {start i : Inspection}

theorem mem_entriesOf (config : Config) (classes : List ClassDecl) (alike : start.Alike i)
    (p : Procedure) :
    p ∈ (entriesOf config classes i).1 ↔
      ∃ c ∈ classes, c.isInterface = false ∧
        ((entryOf c).attempt start).1 = .ok (some (some p)) := by
  induction classes generalizing i with
  | nil => simp [entriesOf]
  | cons c rest ih =>
      unfold entriesOf
      by_cases isInterface : c.isInterface
      · rw [if_pos isInterface, ih alike]
        simp [isInterface]
      · have agrees := (steady_entryOf c).agrees alike
        rw [if_neg isInterface]
        dsimp only
        rw [List.mem_append, ih (alike.trans (alike_classEntry config c i))]
        simp only [List.exists_mem_cons_iff, Bool.eq_false_iff.mpr isInterface, true_and]
        refine or_congr_left ?_
        rw [← agrees]
        cases answer : ((entryOf c).attempt i).1 with
        | error fault => simp [(classEntry_of_error answer).1]
        | ok entry =>
            rw [(classEntry_of_ok answer).1]
            simp [Option.join_eq_some_iff]

/-- Exactly the classes that cannot be classified are written down. -/
theorem issues_entriesOf (config : Config) (classes : List ClassDecl) (alike : start.Alike i) :
    ∃ recorded, (entriesOf config classes i).2.issues = i.issues ++ recorded ∧
      (∀ issue ∈ recorded, ∃ c ∈ classes, c.isInterface = false ∧
        (∀ entry, ((entryOf c).attempt start).1 ≠ .ok entry) ∧
        ∃ fault, issue = c.unclassified fault) ∧
      ∀ c ∈ classes, c.isInterface = false →
        (∀ entry, ((entryOf c).attempt start).1 ≠ .ok entry) →
        ∃ fault, c.unclassified fault ∈ recorded := by
  induction classes generalizing i with
  | nil => exact ⟨[], by simp [entriesOf], by simp, by simp⟩
  | cons c rest ih =>
      unfold entriesOf
      by_cases isInterface : c.isInterface
      · rw [if_pos isInterface]
        obtain ⟨recorded, issues, only, complete⟩ := ih alike
        refine ⟨recorded, issues, fun issue listed => ?_, List.forall_mem_cons.mpr ⟨?_, complete⟩⟩
        · obtain ⟨d, isClass, about⟩ := only issue listed
          exact ⟨d, List.mem_cons_of_mem _ isClass, about⟩
        · intro isConcrete
          rw [isInterface] at isConcrete
          cases isConcrete
      · rw [if_neg isInterface]
        dsimp only
        obtain ⟨mine, issues, onlyMine, completeMine⟩ := issues_classEntry config c i
        obtain ⟨others, issuesRest, only, complete⟩ :=
          ih (alike.trans (alike_classEntry config c i))
        refine ⟨mine ++ others, ?_, fun issue listed => ?_, List.forall_mem_cons.mpr ⟨?_, ?_⟩⟩
        · rw [issuesRest, issues, List.append_assoc]
        · rcases List.mem_append.mp listed with isMine | isOther
          · obtain ⟨unanswered, about⟩ := onlyMine issue isMine
            refine ⟨c, List.mem_cons_self, by simpa using isInterface, fun entry answer => ?_, about⟩
            exact unanswered entry (((steady_entryOf c).agrees alike entry).mpr answer)
          · obtain ⟨d, isClass, about⟩ := only issue isOther
            exact ⟨d, List.mem_cons_of_mem _ isClass, about⟩
        · intro _ unanswered
          obtain ⟨fault, isMine⟩ := completeMine fun entry answer =>
            unanswered entry (((steady_entryOf c).agrees alike entry).mp answer)
          exact ⟨fault, List.mem_append_left _ isMine⟩
        · intro d isClass isConcrete unanswered
          obtain ⟨fault, isOther⟩ := complete d isClass isConcrete unanswered
          exact ⟨fault, List.mem_append_right _ isOther⟩

end Dispatch

/-! ## The edges of a call site -/

namespace CallGraph

theorem edgesOutOf_insertEdge (g : CallGraph) (e : CallEdge) (site : Site) :
    (g.insertEdge e).edgesOutOf site =
      if e.site = site then g.edgesOutOf site ++ [e] else g.edgesOutOf site := by
  simp only [edgesOutOf, insertEdge, file, OrderedMap.get?_insert]
  by_cases same : e.site = site
  · simp [same]
  · simp [same]

theorem hasEdge_insertEdge (g : CallGraph) (e : CallEdge) (signature : Text) :
    (g.insertEdge e).hasEdge e.site signature =
      (g.hasEdge e.site signature || decide (e.target.signature = signature)) := by
  simp [hasEdge, edgesOutOf_insertEdge]

theorem hasEdge_congr {g g' : CallGraph} {site : Site}
    (same : g'.edgesOutOf site = g.edgesOutOf site) (signature : Text) :
    g'.hasEdge site signature = g.hasEdge site signature := by
  simp only [hasEdge, same]

end CallGraph

namespace DispatchRule

/-- The edge that a rule adds to a call site. -/
def edge (rule : DispatchRule) (caller : Procedure) (site : Site) (s : Statement)
    (target : Procedure) : CallEdge :=
  { source := caller, site, index := s.index, target, kind := rule.edgeKind }

/-- A rule looks at no other edges than those of the call site. -/
theorem judge_congr {g g' : CallGraph} {site : Site}
    (same : g'.edgesOutOf site = g.edgesOutOf site) (rule : DispatchRule) (context : Context)
    (caller : Procedure) (s : Statement) :
    rule.judge context g' caller site s = rule.judge context g caller site s := by
  simp only [judge, same]

theorem submitted_cases {context : Context} {caller : Procedure} {s : Statement}
    {i j : Inspection} {verdict : Verdict} (returned : submitted context caller s i = .ok verdict j) :
    (∃ p, verdict = .targets [p]) ∨ ∃ message, verdict = unclearTask caller s message := by
  unfold submitted at returned
  cases typed : s.firstArgType with
  | none =>
      simp only [typed] at returned
      cases returned
      exact .inr ⟨_, rfl⟩
  | some type =>
      simp only [typed] at returned
      obtain ⟨found, middle, asked, others⟩ := ok_of_bind returned
      cases found with
      | none =>
          cases others
          exact .inr ⟨_, rfl⟩
      | some c =>
          by_cases isInterface : c.isInterface
          · simp only [isInterface] at others
            cases others
            exact .inr ⟨_, rfl⟩
          · simp only [isInterface] at others
            obtain ⟨entry, middle, searched, others⟩ := ok_of_bind others
            cases entry with
            | none =>
                cases others
                exact .inr ⟨_, rfl⟩
            | some p =>
                cases others
                exact .inl ⟨p, rfl⟩

/-- What a rule finds unclear is the call site that it was asked about. -/
theorem place_of_unclear {rule : DispatchRule} {context : Context} {g : CallGraph}
    {caller : Procedure} {site : Site} {s : Statement} {i j : Inspection} {failure : Failure}
    (returned : rule.judge context g caller site s i = .ok (.unclear failure) j) :
    (Issue.ofFailure "augment" failure).place = s.unclassified caller := by
  unfold judge at returned
  cases invoked : s.invokedMethod with
  | none =>
      simp only [invoked] at returned
      cases returned
  | some method =>
      simp only [invoked] at returned
      cases rule with
      | submit =>
          by_cases applies : isAmong context.config.submitSignatures method
          · simp only [applies] at returned
            rcases submitted_cases returned with ⟨p, isTarget⟩ | ⟨message, isUnclear⟩
            · cases isTarget
            · cases isUnclear
              rfl
          · simp only [applies] at returned
            cases returned
      | start =>
          by_cases applies : isAmong context.config.threadStartSignatures method
          · simp only [applies] at returned
            cases returned
          · simp only [applies] at returned
            cases returned
      | fallback =>
          by_cases applies : (g.edgesOutOf site).isEmpty
          · simp only [applies] at returned
            obtain ⟨p, middle, found, others⟩ := ok_of_bind returned
            cases others
          · simp only [applies] at returned
            cases returned

/-- Only a started thread may run any entry. -/
theorem judge_of_ne_start {rule : DispatchRule} (notStart : rule ≠ .start) (config : Config)
    (entries others : List Procedure) (g : CallGraph) (caller : Procedure) (site : Site)
    (s : Statement) :
    rule.judge { config, entries } g caller site s =
      rule.judge { config, entries := others } g caller site s := by
  cases rule with
  | start => exact absurd rfl notStart
  | submit => rfl
  | fallback => rfl

/-- Whether a call starts a thread. -/
def starts (config : Config) (s : Statement) : Bool :=
  s.invokedMethod.any (isAmong config.threadStartSignatures)

theorem attempt_start (context : Context) (g : CallGraph) (caller : Procedure) (site : Site)
    (s : Statement) (i : Inspection) :
    (start.judge context g caller site s).attempt i =
      (.ok (if starts context.config s then
        .targets (context.entries.filter (·.signature ≠ caller.signature)) else .pass), i) := by
  unfold judge starts
  cases s.invokedMethod with
  | none => rfl
  | some method =>
      simp only [Option.any_some]
      split <;> rfl

end DispatchRule

namespace Augmentation

/-- What the rules decide about a call site. -/
inductive Ruling where
  /-- No rule applies. -/
  | passed
  | linked (rule : DispatchRule) (targets : List Procedure)
  /-- A rule could not tell whether it applies, or to what. -/
  | ignored

section Site

variable (context : DispatchRule.Context) (g : CallGraph) (i : Inspection) (caller : Procedure)
  (site : Site) (s : Statement)

def ruling : List DispatchRule → Ruling
  | [] => .passed
  | rule :: rest =>
      match ((rule.judge context g caller site s).attempt i).1 with
      | .ok .pass => ruling rest
      | .ok (.targets targets) => .linked rule targets
      | .ok (.unclear _) | .error _ => .ignored

/-- The edges that a call site gets: one to each target that it has no edge to. -/
def siteEdges (rules : List DispatchRule) : List CallEdge :=
  match ruling context g i caller site s rules with
  | .linked rule targets =>
      (targets.filter fun target => !g.hasEdge site target.signature).map
        (rule.edge caller site s)
  | _ => []

/-- The issue of a call site, if it has one. -/
def sitePlaces (rules : List DispatchRule) : List IssuePlace :=
  match ruling context g i caller site s rules with
  | .ignored => [s.unclassified caller]
  | _ => []

theorem mem_siteEdges (rules : List DispatchRule) (e : CallEdge) :
    e ∈ siteEdges context g i caller site s rules ↔
      ∃ rule targets, ruling context g i caller site s rules = .linked rule targets ∧
        ∃ target ∈ targets, g.hasEdge site target.signature = false ∧
          e = rule.edge caller site s target := by
  unfold siteEdges
  cases ruling context g i caller site s rules with
  | passed => simp
  | ignored => simp
  | linked rule targets => simp [and_assoc, eq_comm (a := e)]

theorem mem_sitePlaces (rules : List DispatchRule) (place : IssuePlace) :
    place ∈ sitePlaces context g i caller site s rules ↔
      ruling context g i caller site s rules = .ignored ∧ place = s.unclassified caller := by
  unfold sitePlaces
  cases ruling context g i caller site s rules with
  | passed => simp
  | ignored => simp
  | linked rule targets => simp

end Site

/-- What an augmentation adds between two states. -/
structure Adds (before after : Augmentation) (edges : List CallEdge) (places : List IssuePlace) :
    Prop where
  added : after.added = before.added ++ edges
  edges : after.graph.edges = before.graph.edges ++ edges
  issues : ∃ recorded, after.inspection.issues = before.inspection.issues ++ recorded ∧
    recorded.map Issue.place = places

theorem adds_link (rule : DispatchRule) (caller : Procedure) (site : Site) (s : Statement)
    (a : Augmentation) (targets : List Procedure) :
    Adds a (link rule caller site s a targets).1 (link rule caller site s a targets).2 [] := by
  induction targets generalizing a with
  | nil => exact ⟨by simp [link], by simp [link], [], by simp [link], rfl⟩
  | cons target rest ih =>
      unfold link
      split
      · exact ih a
      · dsimp only
        obtain ⟨added, edges, issues⟩ := ih _
        refine ⟨added.trans ?_, edges.trans ?_, issues⟩
        · simp
        · simp [CallGraph.insertEdge]

theorem edgesOutOf_link (rule : DispatchRule) (caller : Procedure) {site other : Site}
    (different : site ≠ other) (s : Statement) (a : Augmentation) (targets : List Procedure) :
    (link rule caller site s a targets).1.graph.edgesOutOf other = a.graph.edgesOutOf other := by
  induction targets generalizing a with
  | nil => rfl
  | cons target rest ih =>
      unfold link
      split
      · exact ih a
      · dsimp only
        refine (ih _).trans ?_
        rw [CallGraph.edgesOutOf_insertEdge, if_neg different]

theorem mem_link {rule : DispatchRule} {caller : Procedure} {site : Site} {s : Statement}
    {a : Augmentation} {program : Program} {targets : List Procedure}
    (known : ∀ p ∈ targets, program.Knows p) (e : CallEdge) :
    e ∈ (link rule caller site s a targets).2 ↔
      ∃ target ∈ targets, a.graph.hasEdge site target.signature = false ∧
        e = rule.edge caller site s target := by
  induction targets generalizing a with
  | nil => simp [link]
  | cons target rest ih =>
      obtain ⟨targetKnown, restKnown⟩ := List.forall_mem_cons.mp known
      unfold link
      by_cases hasEdge : a.graph.hasEdge site target.signature
      · rw [if_pos hasEdge, ih restKnown]
        simp [hasEdge]
      · rw [if_neg hasEdge]
        dsimp only
        rw [List.mem_cons, ih restKnown]
        have hasEdgeNow (signature : Text) :
            (a.graph.insertEdge (rule.edge caller site s target)).hasEdge site signature =
              (a.graph.hasEdge site signature || decide (target.signature = signature)) :=
          a.graph.hasEdge_insertEdge (rule.edge caller site s target) signature
        constructor
        · rintro (isFirst | ⟨other, inRest, isNew, isEdge⟩)
          · exact ⟨target, List.mem_cons_self, by simpa using hasEdge, isFirst⟩
          · refine ⟨other, List.mem_cons_of_mem _ inRest, ?_, isEdge⟩
            exact (Bool.or_eq_false_iff.mp ((hasEdgeNow _).symm.trans isNew)).1
        · rintro ⟨other, listed, isNew, isEdge⟩
          -- A target that is listed again gets no second edge, and it is the same procedure.
          by_cases same : target.signature = other.signature
          · left
            rcases List.mem_cons.mp listed with rfl | inRest
            · exact isEdge
            · rwa [targetKnown.eq (restKnown other inRest) same]
          · rcases List.mem_cons.mp listed with rfl | inRest
            · exact absurd rfl same
            · refine .inr ⟨other, inRest, (hasEdgeNow _).trans ?_, isEdge⟩
              simp [isNew, same]

theorem Adds.refl (a : Augmentation) : Adds a a [] [] :=
  ⟨by simp, by simp, [], by simp, rfl⟩

/-- Questions add nothing. -/
theorem Adds.asked {a after : Augmentation} {j : Inspection} {edges : List CallEdge}
    {places : List IssuePlace} (adds : Adds { a with inspection := j } after edges places)
    (silent : j.issues = a.inspection.issues) : Adds a after edges places :=
  ⟨adds.added, adds.edges, silent ▸ adds.issues⟩

theorem adds_ignoreSite (a : Augmentation) (failure : Failure) :
    Adds a (ignoreSite a failure) [] [(Issue.ofFailure "augment" failure).place] :=
  ⟨by simp [ignoreSite, inspect], by simp [ignoreSite, inspect],
    [Issue.ofFailure "augment" failure], rfl, rfl⟩

/-- Only what the rules decide about a call site matters, and only the program and the edges of the
    site matter to it. -/
theorem applyRules_spec {context : DispatchRule.Context} {g : CallGraph} {i : Inspection}
    {a : Augmentation} {caller : Procedure} {site : Site} {s : Statement}
    (alike : i.Alike a.inspection) (fresh : a.graph.edgesOutOf site = g.edgesOutOf site)
    (coherent : a.inspection.program.Coherent)
    (entriesKnown : ∀ p ∈ context.entries, a.inspection.program.Knows p)
    (rules : List DispatchRule) :
    Adds a (applyRules context caller site s a rules).1 (applyRules context caller site s a rules).2
        (sitePlaces context g i caller site s rules) ∧
      ∀ e, e ∈ (applyRules context caller site s a rules).2 ↔
        e ∈ siteEdges context g i caller site s rules := by
  induction rules generalizing a with
  | nil => exact ⟨.refl a, by simp [applyRules, siteEdges, ruling]⟩
  | cons rule rest ih =>
      have steady := rule.steady_judge context g caller site s
      have agrees := steady.agrees alike
      have silent := (steady.quiet a.inspection).2
      have alikeAfter := alike.trans (steady.quiet a.inspection).1
      have later := rule.harmless_judge context g caller site s a.inspection
      unfold applyRules sitePlaces siteEdges ruling
      rw [DispatchRule.judge_congr fresh]
      cases result : rule.judge context g caller site s a.inspection with
      | error fault j =>
          rw [Inspecting.attempt_of_error result] at agrees silent
          rw [Inspecting.attempt_of_error result]
          cases answer : ((rule.judge context g caller site s).attempt i).1 with
          | ok verdict => cases (agrees verdict).mpr answer
          | error other => exact ⟨(adds_ignoreSite _ _).asked silent, by simp⟩
      | ok verdict j =>
          rw [Inspecting.attempt_of_ok result] at agrees silent alikeAfter later
          rw [Inspecting.attempt_of_ok result]
          have answer := (agrees verdict).mp rfl
          have coherentAfter := later.program.coherent coherent
          have knownAfter := fun p listed => later.program.knows (entriesKnown p listed)
          cases verdict with
          | pass =>
              simp only [answer]
              obtain ⟨adds, edges⟩ := ih (a := { a with inspection := j }) alikeAfter fresh
                coherentAfter knownAfter
              exact ⟨adds.asked silent, edges⟩
          | targets targets =>
              simp only [answer]
              refine ⟨(adds_link rule caller site s _ targets).asked silent, fun e => ?_⟩
              rw [mem_link (DispatchRule.knows_of_judge coherent.isFiled entriesKnown result)]
              simp only [CallGraph.hasEdge_congr fresh, List.mem_map, List.mem_filter,
                Bool.not_eq_true', and_assoc, eq_comm (a := e)]
          | unclear failure =>
              simp only [answer, ← DispatchRule.place_of_unclear result]
              exact ⟨(adds_ignoreSite _ failure).asked silent, by simp⟩

theorem edgesOutOf_applyRules (context : DispatchRule.Context) (caller : Procedure)
    {site other : Site} (different : site ≠ other) (s : Statement) (a : Augmentation)
    (rules : List DispatchRule) :
    (applyRules context caller site s a rules).1.graph.edgesOutOf other =
      a.graph.edgesOutOf other := by
  induction rules generalizing a with
  | nil => rfl
  | cons rule rest ih =>
      unfold applyRules
      split
      · exact ih _
      · exact edgesOutOf_link rule caller different s _ _
      · rfl
      · rfl

/-- Where fewer questions fail and more entries are known, a call site is decided in the same way, up
    to the entries that a started thread may run, unless it had been ignored. -/
theorem ruling_of_clearer (config : Config) (g : CallGraph) {i j : Inspection}
    (clearer : i.Clearer j) (entries others : List Procedure) (caller : Procedure) (site : Site)
    (s : Statement) (rules : List DispatchRule) :
    ruling { config, entries } g i caller site s rules = .ignored ∨
      ruling { config, entries } g i caller site s rules =
        ruling { config, entries := others } g j caller site s rules ∨
      ruling { config, entries } g i caller site s rules =
          .linked .start (entries.filter (·.signature ≠ caller.signature)) ∧
        ruling { config, entries := others } g j caller site s rules =
          .linked .start (others.filter (·.signature ≠ caller.signature)) := by
  induction rules with
  | nil => exact .inr (.inl rfl)
  | cons rule rest ih =>
      unfold ruling
      by_cases isStart : rule = .start
      · subst isStart
        simp only [DispatchRule.attempt_start]
        by_cases applies : DispatchRule.starts config s
        · exact .inr (.inr (by simp [applies]))
        · simpa [applies] using ih
      · rw [DispatchRule.judge_of_ne_start isStart config entries others]
        have steady := rule.steady_judge { config, entries := others } g caller site s
        cases answer : ((rule.judge { config, entries := others } g caller site s).attempt i).1 with
        | error fault => exact .inl rfl
        | ok verdict =>
            rw [steady.stable clearer answer]
            cases verdict with
            | pass => exact ih
            | targets targets => exact .inr (.inl rfl)
            | unclear failure => exact .inl rfl

end Augmentation

end CallWeight
