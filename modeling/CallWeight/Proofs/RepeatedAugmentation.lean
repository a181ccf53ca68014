import CallWeight.Proofs.AssembledPrograms
import CallWeight.Proofs.DispatchEdges

/-! # Augmenting twice

A call site is settled if the rules would give it no further edge. Applying the rules to a call site
settles it, and what is settled stays so as edges are added elsewhere and to it: more edges only make
the last rule pass, and the other rules do not look at them. So a walk settles every procedure that it
visits, whichever questions fail, and a second walk finds nothing to add. It need not even descend.

The signatures in which a walk keeps its visits have to name the visited procedures, which is why
methods must not share signatures.
-/

namespace CallWeight

theorem Program.Knows.names {program : Program} {p : Procedure} (known : program.Knows p) :
    program.Names p.signature p := by
  unfold Knows at known
  rw [Names, map_fst_procedure, known]

theorem Program.Names.unique {program : Program} {signature : Text} {p q : Procedure}
    (isP : program.Names signature p) (isQ : program.Names signature q) : p = q :=
  Except.ok.inj (isP.symm.trans isQ)

/-! ## Kept edges -/

namespace CallGraph

/-- Whether another graph has all edges of this one at every call site. -/
def KeptBy (g g' : CallGraph) : Prop := ∀ site, g.edgesOutOf site ⊆ g'.edgesOutOf site

variable {g g' : CallGraph}

theorem KeptBy.refl (g : CallGraph) : g.KeptBy g := fun _ => List.Subset.refl _

theorem KeptBy.trans {g'' : CallGraph} (first : g.KeptBy g') (second : g'.KeptBy g'') :
    g.KeptBy g'' := fun site => List.Subset.trans (first site) (second site)

theorem keptBy_insertEdge (g : CallGraph) (e : CallEdge) : g.KeptBy (g.insertEdge e) := by
  intro site
  rw [edgesOutOf_insertEdge]
  split
  · exact List.subset_append_left _ _
  · exact List.Subset.refl _

theorem KeptBy.hasEdge (kept : g.KeptBy g') {site : Site} {signature : Text}
    (has : g.hasEdge site signature = true) : g'.hasEdge site signature = true := by
  obtain ⟨e, leaves, arrives⟩ := List.any_eq_true.mp has
  exact List.any_eq_true.mpr ⟨e, kept site leaves, arrives⟩

theorem KeptBy.isEmpty (kept : g.KeptBy g') {site : Site}
    (none : (g'.edgesOutOf site).isEmpty = true) : (g.edgesOutOf site).isEmpty = true := by
  rw [List.isEmpty_iff] at none ⊢
  exact List.subset_nil.mp (none ▸ kept site)

end CallGraph

/-! ## What rules name -/

namespace DispatchRule

/-- Only the last rule looks at the edges of a call site. -/
theorem judge_of_ne_fallback (rule : DispatchRule) (notFallback : rule ≠ .fallback)
    (context : Context) (g g' : CallGraph) (caller : Procedure) (site : Site) (s : Statement) :
    rule.judge context g' caller site s = rule.judge context g caller site s := by
  cases rule with
  | fallback => exact absurd rfl notFallback
  | submit => rfl
  | start => rfl

theorem ok_of_attempt {α : Type} {x : Inspecting α} {i : Inspection} {a : α}
    (returned : (x.attempt i).1 = .ok a) : ∃ j, x i = .ok a j := by
  cases result : x i with
  | ok b j =>
      rw [Inspecting.attempt_of_ok result] at returned
      cases returned
      exact ⟨j, rfl⟩
  | error fault j =>
      rw [Inspecting.attempt_of_error result] at returned
      cases returned

/-- What a rule names is named by its signature. -/
theorem names_of_judge {rule : DispatchRule} {context : Context} {g : CallGraph}
    {caller : Procedure} {site : Site} {s : Statement} {i : Inspection} {targets : List Procedure}
    (filed : i.program.Filed) (entriesNamed : ∀ p ∈ context.entries, i.program.Names p.signature p)
    (returned : ((rule.judge context g caller site s).attempt i).1 = .ok (.targets targets)) :
    ∀ p ∈ targets, i.program.Names p.signature p := by
  by_cases isStart : rule = .start
  · subst isStart
    rw [attempt_start] at returned
    split at returned
    · cases returned
      exact fun p listed => entriesNamed p (List.mem_filter.mp listed).1
    · cases returned
  · rw [judge_of_ne_start isStart context.config context.entries []] at returned
    have alike := ((rule.steady_judge { context with entries := [] } g caller site s).quiet i).1
    obtain ⟨j, returned⟩ := ok_of_attempt returned
    rw [Inspecting.attempt_of_ok returned] at alike
    intro p listed
    have known := knows_of_judge filed (by simp) returned p listed
    exact (alike.program.names _ _).mp known.names

end DispatchRule

namespace Dispatch

theorem names_of_entriesOf {config : Config} {classes : List ClassDecl} {i : Inspection}
    (filed : i.program.Filed) (areClasses : classes ⊆ i.program.classes.values) :
    ∀ p ∈ (entriesOf config classes i).1, i.program.Names p.signature p := by
  intro p listed
  obtain ⟨c, isClass, -, answer⟩ := (mem_entriesOf config classes (.refl i) p).mp listed
  have alike := ((steady_entryOf c).quiet i).1
  obtain ⟨j, returned⟩ := DispatchRule.ok_of_attempt answer
  rw [Inspecting.attempt_of_ok returned] at alike
  exact (alike.program.names _ _).mp (knows_of_entryOf filed (areClasses isClass) returned).names

theorem classEntry_congr (config : Config) (c : ClassDecl) {i j : Inspection} (alike : i.Alike j) :
    (classEntry config c j).1 = (classEntry config c i).1 := by
  have agrees := (steady_entryOf c).agrees alike
  cases answer : ((entryOf c).attempt i).1 with
  | ok entry =>
      rw [(classEntry_of_ok answer).1, (classEntry_of_ok ((agrees entry).mpr answer)).1]
  | error fault =>
      cases answer' : ((entryOf c).attempt j).1 with
      | ok entry => cases answer.symm.trans ((agrees entry).mp answer')
      | error fault' => rw [(classEntry_of_error answer).1, (classEntry_of_error answer').1]

theorem entriesOf_congr (config : Config) (classes : List ClassDecl) {i j : Inspection}
    (alike : i.Alike j) : (entriesOf config classes j).1 = (entriesOf config classes i).1 := by
  induction classes generalizing i j with
  | nil => rfl
  | cons c rest ih =>
      unfold entriesOf
      split
      · exact ih alike
      · dsimp only
        rw [classEntry_congr config c alike]
        congr 1
        exact ih ((alike_classEntry config c i).symm.trans
          (alike.trans (alike_classEntry config c j)))

end Dispatch

namespace Augmentation

/-! ## One call site -/

section Site

variable {context : DispatchRule.Context} {i : Inspection} {caller : Procedure} {site : Site}
  {s : Statement}

theorem ruling_cons {g g' : CallGraph} {rule : DispatchRule} {rest : List DispatchRule}
    (same : rule.judge context g' caller site s = rule.judge context g caller site s)
    (others : ruling context g' i caller site s rest = ruling context g i caller site s rest ∨
      ruling context g' i caller site s rest = .passed) :
    ruling context g' i caller site s (rule :: rest) =
        ruling context g i caller site s (rule :: rest) ∨
      ruling context g' i caller site s (rule :: rest) = .passed := by
  unfold ruling
  rw [same]
  cases ((rule.judge context g caller site s).attempt i).1 with
  | error fault => exact .inl rfl
  | ok verdict =>
      cases verdict with
      | pass => exact others
      | targets targets => exact .inl rfl
      | unclear failure => exact .inl rfl

/-- More edges at a call site make the rules decide as before or pass. -/
theorem ruling_of_kept {g g' : CallGraph} (kept : g.KeptBy g') :
    ruling context g' i caller site s DispatchRule.all =
        ruling context g i caller site s DispatchRule.all ∨
      ruling context g' i caller site s DispatchRule.all = .passed := by
  refine ruling_cons (DispatchRule.judge_of_ne_fallback .submit nofun context g g' caller site s) ?_
  refine ruling_cons (DispatchRule.judge_of_ne_fallback .start nofun context g g' caller site s) ?_
  by_cases none : (g'.edgesOutOf site).isEmpty = true
  · have same : DispatchRule.fallback.judge context g' caller site s =
        DispatchRule.fallback.judge context g caller site s := by
      simp only [DispatchRule.judge, none, kept.isEmpty none]
    exact ruling_cons same (.inl rfl)
  · right
    unfold ruling DispatchRule.judge
    cases s.invokedMethod with
    | none => rfl
    | some method => simp [none, ruling]

theorem names_of_ruling {g : CallGraph} (filed : i.program.Filed)
    (entriesNamed : ∀ p ∈ context.entries, i.program.Names p.signature p)
    {rules : List DispatchRule} {rule : DispatchRule} {targets : List Procedure}
    (linked : ruling context g i caller site s rules = .linked rule targets) :
    ∀ p ∈ targets, i.program.Names p.signature p := by
  induction rules with
  | nil => cases linked
  | cons first rest ih =>
      unfold ruling at linked
      cases answer : ((first.judge context g caller site s).attempt i).1 with
      | error fault =>
          rw [answer] at linked
          cases linked
      | ok verdict =>
          rw [answer] at linked
          cases verdict with
          | pass => exact ih linked
          | targets targets =>
              cases linked
              exact DispatchRule.names_of_judge filed entriesNamed answer
          | unclear failure => cases linked

theorem siteEdges_eq_nil_iff {g : CallGraph} {rules : List DispatchRule} :
    siteEdges context g i caller site s rules = [] ↔
      ∀ rule targets, ruling context g i caller site s rules = .linked rule targets →
        ∀ target ∈ targets, g.hasEdge site target.signature = true := by
  unfold siteEdges
  cases ruling context g i caller site s rules with
  | passed => simp
  | ignored => simp
  | linked rule targets => simp

/-- What needs no edges still needs none after edges were added anywhere. -/
theorem siteEdges_of_kept {g g' : CallGraph} (kept : g.KeptBy g')
    (settled : siteEdges context g i caller site s DispatchRule.all = []) :
    siteEdges context g' i caller site s DispatchRule.all = [] := by
  rw [siteEdges_eq_nil_iff] at settled ⊢
  intro rule targets linked target listed
  rcases ruling_of_kept kept with same | passed
  · exact kept.hasEdge (settled rule targets (same.symm.trans linked) target listed)
  · cases passed.symm.trans linked

end Site

section Link

variable (rule : DispatchRule) (caller : Procedure) (site : Site) (s : Statement)

theorem keptBy_link (a : Augmentation) (targets : List Procedure) :
    a.graph.KeptBy (link rule caller site s a targets).1.graph := by
  induction targets generalizing a with
  | nil => exact .refl _
  | cons target rest ih =>
      unfold link
      split
      · exact ih a
      · dsimp only
        refine CallGraph.KeptBy.trans ?_ (ih _)
        exact a.graph.keptBy_insertEdge _

/-- All targets have edges once they are linked. -/
theorem hasEdge_link (a : Augmentation) {targets : List Procedure} :
    ∀ target ∈ targets,
      (link rule caller site s a targets).1.graph.hasEdge site target.signature = true := by
  induction targets generalizing a with
  | nil => simp
  | cons first rest ih =>
      unfold link
      split
      case isTrue has =>
        exact List.forall_mem_cons.mpr ⟨(keptBy_link rule caller site s a rest).hasEdge has, ih a⟩
      case isFalse =>
        refine List.forall_mem_cons.mpr ⟨(keptBy_link rule caller site s _ rest).hasEdge ?_, ih _⟩
        have has := a.graph.hasEdge_insertEdge (rule.edge caller site s first) first.signature
        exact has.trans (by simp [DispatchRule.edge])

theorem link_of_hasEdge {a : Augmentation} {targets : List Procedure}
    (has : ∀ target ∈ targets, a.graph.hasEdge site target.signature = true) :
    link rule caller site s a targets = (a, []) := by
  induction targets with
  | nil => rfl
  | cons target rest ih =>
      obtain ⟨first, others⟩ := List.forall_mem_cons.mp has
      rw [link, if_pos first, ih others]

theorem target_mem_of_link {a : Augmentation} {targets : List Procedure} {e : CallEdge}
    (isNew : e ∈ (link rule caller site s a targets).2) : e.target ∈ targets := by
  induction targets generalizing a with
  | nil => cases isNew
  | cons target rest ih =>
      unfold link at isNew
      split at isNew
      · exact List.mem_cons_of_mem _ (ih isNew)
      · rcases List.mem_cons.mp isNew with rfl | later
        · exact List.mem_cons_self
        · exact List.mem_cons_of_mem _ (ih later)

end Link

section Rules

variable {context : DispatchRule.Context} {i : Inspection} {a : Augmentation} {caller : Procedure}
  {site : Site} {s : Statement}

/-- The rules link a call site to the targets that they decide on, or leave the graph as it is. -/
theorem applyRules_cases (alike : i.Alike a.inspection) (rules : List DispatchRule) :
    (∃ rule targets j, ruling context a.graph i caller site s rules = .linked rule targets ∧
      applyRules context caller site s a rules =
        link rule caller site s { a with inspection := j } targets) ∨
    (∀ rule targets, ruling context a.graph i caller site s rules ≠ .linked rule targets) ∧
      (applyRules context caller site s a rules).1.graph = a.graph ∧
      (applyRules context caller site s a rules).1.added = a.added ∧
      (applyRules context caller site s a rules).2 = [] := by
  induction rules generalizing a with
  | nil => exact .inr ⟨by simp [ruling], rfl, rfl, rfl⟩
  | cons rule rest ih =>
      have steady := rule.steady_judge context a.graph caller site s
      have agrees := steady.agrees alike
      have alikeAfter := alike.trans (steady.quiet a.inspection).1
      unfold applyRules ruling
      cases result : rule.judge context a.graph caller site s a.inspection with
      | error fault j =>
          rw [Inspecting.attempt_of_error result] at agrees
          rw [Inspecting.attempt_of_error result]
          cases answer : ((rule.judge context a.graph caller site s).attempt i).1 with
          | ok verdict => cases (agrees verdict).mpr answer
          | error other => exact .inr ⟨by simp, rfl, rfl, rfl⟩
      | ok verdict j =>
          rw [Inspecting.attempt_of_ok result] at agrees alikeAfter
          rw [Inspecting.attempt_of_ok result, (agrees verdict).mp rfl]
          cases verdict with
          | pass => exact ih (a := { a with inspection := j }) alikeAfter
          | targets targets => exact .inl ⟨rule, targets, j, rfl, rfl⟩
          | unclear failure => exact .inr ⟨by simp, rfl, rfl, rfl⟩

theorem keptBy_applyRules (alike : i.Alike a.inspection) (rules : List DispatchRule) :
    a.graph.KeptBy (applyRules context caller site s a rules).1.graph := by
  rcases applyRules_cases alike rules with ⟨rule, targets, j, -, links⟩ | ⟨-, graph, -⟩
  · rw [links]
    exact keptBy_link rule caller site s { a with inspection := j } targets
  · rw [graph]
    exact .refl _

theorem names_of_applyRules (alike : i.Alike a.inspection) (filed : i.program.Filed)
    (entriesNamed : ∀ p ∈ context.entries, i.program.Names p.signature p)
    (rules : List DispatchRule) :
    ∀ e ∈ (applyRules context caller site s a rules).2,
      i.program.Names e.target.signature e.target := by
  intro e isNew
  rcases applyRules_cases alike rules with ⟨rule, targets, j, linked, links⟩ | ⟨-, -, -, none⟩
  · rw [links] at isNew
    exact names_of_ruling filed entriesNamed linked _ (target_mem_of_link rule caller site s isNew)
  · rw [none] at isNew
    cases isNew

/-- Applying the rules settles a call site. -/
theorem siteEdges_applyRules (alike : i.Alike a.inspection) :
    siteEdges context (applyRules context caller site s a DispatchRule.all).1.graph i caller site s
      DispatchRule.all = [] := by
  rw [siteEdges_eq_nil_iff]
  intro rule targets linkedAfter target listed
  rcases ruling_of_kept (keptBy_applyRules alike DispatchRule.all) with same | passed
  · rcases applyRules_cases alike DispatchRule.all with ⟨rule', targets', j, linked, links⟩ | ⟨not, -⟩
    · rw [same, linked] at linkedAfter
      cases linkedAfter
      rw [links]
      exact hasEdge_link rule caller site s { a with inspection := j } target listed
    · exact absurd (same.symm.trans linkedAfter) (not rule targets)
  · cases passed.symm.trans linkedAfter

/-- The rules add nothing to a settled call site. -/
theorem applyRules_of_settled (alike : i.Alike a.inspection) {rules : List DispatchRule}
    (settled : siteEdges context a.graph i caller site s rules = []) :
    (applyRules context caller site s a rules).1.graph = a.graph ∧
      (applyRules context caller site s a rules).1.added = a.added ∧
      (applyRules context caller site s a rules).2 = [] := by
  rcases applyRules_cases alike rules with ⟨rule, targets, j, linked, links⟩ | ⟨-, fields⟩
  · have has := siteEdges_eq_nil_iff.mp settled rule targets linked
    have nothing : link rule caller site s { a with inspection := j } targets =
        ({ a with inspection := j }, []) := link_of_hasEdge rule caller site s has
    rw [links, nothing]
    exact ⟨rfl, rfl, rfl⟩
  · exact fields

end Rules

/-! ## Whole procedures -/

/-- Whether no call site of a body needs further edges. -/
def SettledBody (context : DispatchRule.Context) (i : Inspection) (g : CallGraph) (p : Procedure)
    (body : List (Site × Statement)) : Prop :=
  ∀ placed ∈ body, placed.2.isCall = true →
    siteEdges context g i p placed.1 placed.2 DispatchRule.all = []

/-- Whether no call site of a procedure needs further edges, as far as its body can be seen. -/
def Settled (context : DispatchRule.Context) (i : Inspection) (g : CallGraph) (p : Procedure) :
    Prop :=
  ∀ body, i.body p = .ok (some body) → SettledBody context i g p (p.placed body)

section Procedures

variable {context : DispatchRule.Context} {i : Inspection} {a : Augmentation} {p : Procedure}

theorem SettledBody.kept {g g' : CallGraph} {body : List (Site × Statement)}
    (settled : SettledBody context i g p body) (kept : g.KeptBy g') :
    SettledBody context i g' p body := fun placed isPlaced isCall =>
  siteEdges_of_kept kept (settled placed isPlaced isCall)

theorem Settled.kept {g g' : CallGraph} (settled : Settled context i g p) (kept : g.KeptBy g') :
    Settled context i g' p := fun body hasBody => (settled body hasBody).kept kept

theorem mem_descend {a : Augmentation} {targets : List Procedure} {edges : List CallEdge}
    {q : Procedure} (listed : q ∈ (a.descend targets edges).2) :
    q ∈ targets ∨ ∃ e ∈ edges, e.target = q := by
  induction edges generalizing a targets with
  | nil => exact .inl listed
  | cons e rest ih =>
      unfold descend at listed
      split at listed
      · rcases ih listed with isTarget | ⟨f, inRest, isTarget⟩
        · exact .inl isTarget
        · exact .inr ⟨f, List.mem_cons_of_mem _ inRest, isTarget⟩
      · dsimp only at listed
        rcases ih listed with isTarget | ⟨f, inRest, isTarget⟩
        · by_cases answer : (a.isApplication e.target).1 = true
          · rw [if_pos answer] at isTarget
            rcases List.mem_cons.mp isTarget with rfl | old
            · exact .inr ⟨e, List.mem_cons_self, rfl⟩
            · exact .inl old
          · rw [if_neg answer] at isTarget
            exact .inl isTarget
        · exact .inr ⟨f, List.mem_cons_of_mem _ inRest, isTarget⟩

/-- Walking through a body keeps all edges, settles its call sites, and leads on to named procedures
    only. -/
theorem settled_walkBody (alike : i.Alike a.inspection) (filed : i.program.Filed)
    (entriesNamed : ∀ q ∈ context.entries, i.program.Names q.signature q)
    (targets : List Procedure) (targetsNamed : ∀ q ∈ targets, i.program.Names q.signature q)
    (body : List (Site × Statement)) :
    a.graph.KeptBy (walkBody DispatchRule.all context p a targets body).1.graph ∧
      SettledBody context i (walkBody DispatchRule.all context p a targets body).1.graph p body ∧
      ∀ q ∈ (walkBody DispatchRule.all context p a targets body).2,
        i.program.Names q.signature q := by
  induction body generalizing a targets with
  | nil => exact ⟨.refl _, by simp [SettledBody], targetsNamed⟩
  | cons placed rest ih =>
      obtain ⟨site, s⟩ := placed
      unfold walkBody
      by_cases isCall : s.isCall = true
      · rw [if_pos isCall]
        dsimp only
        have keptHere : a.graph.KeptBy (applyRules context p site s a DispatchRule.all).1.graph :=
          keptBy_applyRules alike _
        have namedHere : ∀ e ∈ (applyRules context p site s a DispatchRule.all).2,
            i.program.Names e.target.signature e.target :=
          names_of_applyRules alike filed entriesNamed _
        have settledHere : siteEdges context (applyRules context p site s a DispatchRule.all).1.graph
            i p site s DispatchRule.all = [] := siteEdges_applyRules alike
        have alikeHere := alike.trans (alike_applyRules DispatchRule.all context p site s a)
        generalize applyRules context p site s a DispatchRule.all = applied at *
        have sameGraph := (descend_fields applied.1 targets applied.2).1
        have named : ∀ q ∈ (applied.1.descend targets applied.2).2, i.program.Names q.signature q := by
          intro q listed
          rcases mem_descend listed with isTarget | ⟨e, isNew, rfl⟩
          · exact targetsNamed q isTarget
          · exact namedHere e isNew
        obtain ⟨kept, settled, namedRest⟩ :=
          ih (alikeHere.trans (alike_descend applied.1 targets applied.2)) _ named
        rw [sameGraph] at kept
        refine ⟨keptHere.trans kept, List.forall_mem_cons.mpr ⟨fun _ => ?_, settled⟩, namedRest⟩
        exact siteEdges_of_kept kept settledHere
      · rw [if_neg isCall]
        obtain ⟨kept, settled, named⟩ := ih alike targets targetsNamed
        refine ⟨kept, ?_, named⟩
        refine List.forall_mem_cons.mpr ⟨fun calls => absurd calls isCall, settled⟩

/-- Walking through a settled body adds nothing and leads nowhere. -/
theorem walkBody_of_settled (alike : i.Alike a.inspection) (targets : List Procedure)
    {body : List (Site × Statement)} (settled : SettledBody context i a.graph p body) :
    (walkBody DispatchRule.all context p a targets body).1.graph = a.graph ∧
      (walkBody DispatchRule.all context p a targets body).1.added = a.added ∧
      (walkBody DispatchRule.all context p a targets body).2 = targets := by
  induction body generalizing a targets with
  | nil => exact ⟨rfl, rfl, rfl⟩
  | cons placed rest ih =>
      obtain ⟨settledHere, settledRest⟩ := List.forall_mem_cons.mp settled
      obtain ⟨site, s⟩ := placed
      unfold walkBody
      by_cases isCall : s.isCall = true
      · rw [if_pos isCall]
        dsimp only
        have alikeHere := alike.trans (alike_applyRules DispatchRule.all context p site s a)
        obtain ⟨graph, added, none⟩ := applyRules_of_settled alike (settledHere isCall)
        generalize applyRules context p site s a DispatchRule.all = applied at *
        rw [none, descend]
        obtain ⟨graphRest, addedRest, targetsRest⟩ :=
          ih alikeHere targets (graph.symm ▸ settledRest)
        exact ⟨graphRest.trans graph, addedRest.trans added, targetsRest⟩
      · rw [if_neg isCall]
        exact ih alike targets settledRest

theorem settled_visit (alike : i.Alike a.inspection) (filed : i.program.Filed)
    (entriesNamed : ∀ q ∈ context.entries, i.program.Names q.signature q) (p : Procedure) :
    a.graph.KeptBy (visit DispatchRule.all context p a).1.graph ∧
      Settled context i (visit DispatchRule.all context p a).1.graph p ∧
      ∀ q ∈ (visit DispatchRule.all context p a).2, i.program.Names q.signature q := by
  unfold visit Settled
  dsimp only
  rw [alike.body p]
  split
  case h_1 => exact ⟨.refl _, by simp_all, by simp⟩
  case h_2 => exact ⟨.refl _, by simp_all, by simp⟩
  case h_3 body hasBody =>
    obtain ⟨kept, settled, named⟩ := settled_walkBody (p := p)
      (a := { a with visited := p.signature :: a.visited }) alike filed entriesNamed []
      (by simp) (p.placed body)
    refine ⟨kept, fun other isBody => ?_, named⟩
    cases hasBody.symm.trans isBody
    exact settled

theorem visit_of_settled (alike : i.Alike a.inspection) (settled : Settled context i a.graph p) :
    (visit DispatchRule.all context p a).1.graph = a.graph ∧
      (visit DispatchRule.all context p a).1.added = a.added ∧
      (visit DispatchRule.all context p a).2 = [] := by
  unfold visit
  dsimp only
  rw [alike.body p]
  split
  case h_1 => exact ⟨rfl, rfl, rfl⟩
  case h_2 => exact ⟨rfl, rfl, rfl⟩
  case h_3 body hasBody =>
    exact walkBody_of_settled (a := { a with visited := p.signature :: a.visited }) alike []
      (settled body hasBody)

/-! ## Whole walks -/

/-- Whether everything that a walk has visited is settled. -/
structure Swept (context : DispatchRule.Context) (i : Inspection) (a : Augmentation) : Prop where
  alike : i.Alike a.inspection
  settled : ∀ p, p.signature ∈ a.visited → i.program.Names p.signature p →
    Settled context i a.graph p

section Sweep

variable (filed : i.program.Filed)
  (entriesNamed : ∀ q ∈ context.entries, i.program.Names q.signature q)

include filed entriesNamed

theorem Swept.visit (swept : Swept context i a) (named : i.program.Names p.signature p) :
    Swept context i (visit DispatchRule.all context p a).1 := by
  obtain ⟨kept, settled, -⟩ := settled_visit swept.alike filed entriesNamed p
  refine ⟨swept.alike.trans (alike_visit _ context p a), fun q wasVisited isNamed => ?_⟩
  rw [visited_visit] at wasVisited
  rcases List.mem_cons.mp wasVisited with same | earlier
  · rw [same] at isNamed
    exact isNamed.unique named ▸ settled
  · exact (swept.settled q earlier isNamed).kept kept

theorem Swept.walk (declared : List Text) {worklist : List Procedure}
    (worklistNamed : ∀ q ∈ worklist, i.program.Names q.signature q) (swept : Swept context i a) :
    Swept context i (walk DispatchRule.all context declared worklist a) := by
  fun_induction Augmentation.walk DispatchRule.all context declared worklist a with
  | case1 a => exact swept
  | case2 p worklist a wasVisited ih =>
      exact ih (fun q listed => worklistNamed q (List.mem_cons_of_mem _ listed)) swept
  | case3 p worklist a isNew next isDeclared ih =>
      obtain ⟨named, restNamed⟩ := List.forall_mem_cons.mp worklistNamed
      have targetsNamed := (settled_visit swept.alike filed entriesNamed p).2.2
      exact ih (List.forall_mem_append.mpr ⟨targetsNamed, restNamed⟩)
        (swept.visit filed entriesNamed named)
  | case4 p worklist a isNew next isUndeclared ih =>
      obtain ⟨named, restNamed⟩ := List.forall_mem_cons.mp worklistNamed
      exact ih restNamed (swept.visit filed entriesNamed named)

theorem Swept.extend (declared : List Text) {roots : List Procedure}
    (rootsNamed : ∀ q ∈ roots, i.program.Names q.signature q) (swept : Swept context i a) :
    Swept context i (extend DispatchRule.all context declared a roots) := by
  induction roots generalizing a with
  | nil => exact swept
  | cons root rest ih =>
      obtain ⟨named, restNamed⟩ := List.forall_mem_cons.mp rootsNamed
      rw [Augmentation.extend, List.foldl_cons]
      refine ih restNamed ?_
      split
      · exact swept
      · exact swept.walk filed entriesNamed declared (by simpa using named)

end Sweep

theorem visited_subset_walk (rules : List DispatchRule) (declared : List Text)
    (worklist : List Procedure) (a : Augmentation) :
    a.visited ⊆ (walk rules context declared worklist a).visited := by
  fun_induction walk rules context declared worklist a with
  | case1 a => exact List.Subset.refl _
  | case2 p worklist a wasVisited ih => exact ih
  | case3 p worklist a isNew _ isDeclared | case4 p worklist a isNew _ isUndeclared =>
      rename_i further
      rw [visited_visit] at further
      exact (List.cons_subset.mp further).2

theorem mem_visited_walk (rules : List DispatchRule) (declared : List Text) (p : Procedure)
    (worklist : List Procedure) (a : Augmentation) :
    p.signature ∈ (walk rules context declared (p :: worklist) a).visited := by
  rw [walk]
  split
  case isTrue wasVisited => exact visited_subset_walk rules declared worklist a wasVisited
  case isFalse =>
    have visits : p.signature ∈ (visit rules context p a).1.visited := by simp
    dsimp only
    split <;> exact visited_subset_walk rules declared _ _ visits

/-- A walk from all roots visits all roots. -/
theorem mem_visited_extend (rules : List DispatchRule) (declared : List Text)
    (roots : List Procedure) (a : Augmentation) :
    a.visited ⊆ (extend rules context declared a roots).visited ∧
      ∀ root ∈ roots, root.signature ∈ (extend rules context declared a roots).visited := by
  induction roots generalizing a with
  | nil => exact ⟨List.Subset.refl _, by simp⟩
  | cons root rest ih =>
      rw [extend, List.foldl_cons]
      obtain ⟨kept, visits⟩ := ih (if a.visited.contains root.signature then a
        else walk rules context declared [root] a)
      refine ⟨List.Subset.trans ?_ kept, List.forall_mem_cons.mpr ⟨kept ?_, visits⟩⟩
      · split
        · exact List.Subset.refl _
        · exact visited_subset_walk rules declared [root] a
      · split
        case isTrue wasVisited => simpa using wasVisited
        case isFalse => exact mem_visited_walk rules declared root [] a

/-- A walk from settled procedures adds nothing. -/
theorem extend_of_settled (declared : List Text) {roots : List Procedure}
    (alike : i.Alike a.inspection) (settled : ∀ root ∈ roots, Settled context i a.graph root) :
    (extend DispatchRule.all context declared a roots).graph = a.graph ∧
      (extend DispatchRule.all context declared a roots).added = a.added := by
  induction roots generalizing a with
  | nil => exact ⟨rfl, rfl⟩
  | cons root rest ih =>
      obtain ⟨settledRoot, settledRest⟩ := List.forall_mem_cons.mp settled
      rw [extend, List.foldl_cons]
      split
      case isTrue => exact ih alike settledRest
      case isFalse isNew =>
        obtain ⟨graph, added, none⟩ := visit_of_settled alike settledRoot
        have walks : walk DispatchRule.all context declared [root] a =
            (visit DispatchRule.all context root a).1 := by
          rw [walk, if_neg (by simpa using isNew)]
          dsimp only
          rw [none]
          split <;> simp [walk]
        rw [walks]
        obtain ⟨graphRest, addedRest⟩ :=
          ih (alike.trans (alike_visit _ context root a)) (graph.symm ▸ settledRest)
        exact ⟨graphRest.trans graph, addedRest.trans added⟩

end Procedures

/-- After a first run over a graph, all application procedures are settled in it. -/
theorem settled_run {i : Inspection} (filed : i.program.Filed) (config : Config) (g : CallGraph) :
    ∀ p ∈ i.program.applicationProcedures,
      Settled (contextOf config (fresh i g)) i (run DispatchRule.all config (fresh i g)).graph p := by
  have entriesNamed : ∀ p ∈ (contextOf config (fresh i g)).entries,
      i.program.Names p.signature p :=
    Dispatch.names_of_entriesOf filed fun c listed => (List.mem_filter.mp listed).1
  have alike := alike_begun config (fresh i g)
  have rootsNamed : ∀ p ∈ i.program.applicationProcedures, i.program.Names p.signature p := by
    intro p listed
    obtain ⟨c, isApplication, isMethod⟩ := List.mem_flatMap.mp listed
    exact (filed.declared c (List.mem_filter.mp isApplication).1 p isMethod).names
  have sameRoots := alike.program.applicationProcedures
  have begins : Swept (contextOf config (fresh i g)) i (begun config (fresh i g)) :=
    ⟨alike, fun p wasVisited => absurd wasVisited List.not_mem_nil⟩
  have swept := begins.extend filed entriesNamed
    (declaredSignatures (begun config (fresh i g)).inspection.program) (sameRoots ▸ rootsNamed)
  intro p listed
  rw [graph_run]
  refine swept.settled p ?_ (rootsNamed p listed)
  exact (mem_visited_extend _ _ _ _).2 p (sameRoots ▸ listed)

/-- A second run over the same graph adds nothing. -/
theorem run_of_settled {i j : Inspection} (alike : i.Alike j) (config : Config) {g g' : CallGraph}
    (settled : ∀ p ∈ i.program.applicationProcedures, Settled (contextOf config (fresh i g)) i g' p) :
    (run DispatchRule.all config (fresh j g')).graph = g' ∧
      (run DispatchRule.all config (fresh j g')).added = [] := by
  have sameContext : contextOf config (fresh j g') = contextOf config (fresh i g) := by
    have sameEntries := Dispatch.entriesOf_congr config i.program.applicationClasses alike
    simp only [contextOf, Dispatch.runnableEntries, fresh, alike.program.applicationClasses,
      sameEntries]
  have begins := alike.trans (alike_begun config (fresh j g'))
  rw [graph_run, added_run, walked, sameContext, begins.program.applicationProcedures]
  exact extend_of_settled _ begins settled

end Augmentation

/-- A session may have any program in which no two methods share a signature, any graph and any failing
    questions. If a fresh augmenter with all rules runs over it, then a second one runs too, adds no edge
    and leaves the graph as it is. -/
theorem Session.augment_again {s after : Session} {config : Option Json} {reply : Reply}
    (assembled : s.inspection.program.Assembled)
    (distinct : ((s.inspection.program.classes.values.flatMap (·.methods)).map (·.signature)).Nodup)
    (augmented : step (.augment true config none) s = (.ok reply, after)) :
    ∃ later, step (.augment true config none) after = (.ok (.edges []), later) ∧
      later.graph = after.graph := by
  obtain ⟨⟨chosen, isChosen⟩, named⟩ := of_step_augment_fresh augmented
  obtain ⟨after', stepped, graph, inspection⟩ := step_augment_fresh isChosen named
  obtain ⟨-, rfl⟩ := Prod.mk.inj (augmented.symm.trans stepped)
  have alike : s.inspection.Alike after.inspection := by
    rw [inspection]
    exact Augmentation.alike_run DispatchRule.all chosen (.fresh s.inspection s.graph)
  have settled := Augmentation.settled_run (assembled.filed distinct) chosen s.graph
  rw [← graph] at settled
  obtain ⟨sameGraph, nothing⟩ := Augmentation.run_of_settled alike chosen settled
  have isChosenAgain : after.augmenterConfig config = .ok chosen := by
    cases config with
    | none =>
        rw [← isChosen]
        exact congrArg Except.ok alike.program.config
    | some document => exact isChosen
  obtain ⟨later, again, graphLater, -⟩ :=
    step_augment_fresh isChosenAgain (alike.program.named named)
  rw [nothing] at again
  exact ⟨later, again, graphLater.trans sameGraph⟩

theorem Session.augment_again_of_sample :
    ∃ (program : Program) (log : Log) (added : List CallEdge) (after later : Session),
      Description.program {} Augmentation.sampleDocument #[] = .ok program log ∧
      ((program.classes.values.flatMap (·.methods)).map (·.signature)).Nodup ∧
      step (.augment true none none)
          { inspection := { program, failures := [⟨.procedure, .text "*", "offline"⟩] } } =
        (.ok (.edges added), after) ∧
      added.map (fun e => (e.site.position, e.kind)) =
        [(0, .threadStart), (1, .executorSubmit)] ∧
      step (.augment true none none) after = (.ok (.edges []), later) ∧
      later.graph = after.graph := by
  obtain ⟨program, log, loaded, distinct, added, after, augmented, kinds⟩ :
      ∃ program log, Description.program {} Augmentation.sampleDocument #[] = .ok program log ∧
        ((program.classes.values.flatMap (·.methods)).map (·.signature)).Nodup ∧
        ∃ added after, step (.augment true none none)
            { inspection := { program, failures := [⟨.procedure, .text "*", "offline"⟩] } } =
            (.ok (.edges added), after) ∧
          added.map (fun e => (e.site.position, e.kind)) =
            [(0, .threadStart), (1, .executorSubmit)] :=
    ⟨_, _, by cbv, by decide, _, _, by cbv, by cbv⟩
  have assembled := Description.assembled_program loaded
  obtain ⟨later, again, sameGraph⟩ := augment_again assembled distinct augmented
  exact ⟨program, log, added, after, later, loaded, distinct, augmented, kinds, again, sameGraph⟩

end CallWeight
