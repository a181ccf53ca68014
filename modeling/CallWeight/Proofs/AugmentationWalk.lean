import CallWeight.Proofs.CallSites
import CallWeight.Proofs.CostBounds
import CallWeight.Proofs.Returning
import CallWeight.Session.Step

/-! # What a walk over the program adds

A walk follows the edges that it adds, so the order of its visits depends on what it finds. What a visit
adds does not: the call sites of different procedures are different, and no procedure is visited
twice. So the edges and issues of a whole walk are those of the visited procedures, each read off the
program and the graph as they were at the start, and the visited procedures with a body are the
application procedures.
-/

namespace CallWeight

/-- Items without a contribution do not matter to what two lists without repetition contribute. -/
theorem flatMap_perm_of_contributing {α β : Type} (contributes : α → Bool) {f : α → List β}
    {first second : List α} (firstDistinct : first.Nodup) (secondDistinct : second.Nodup)
    (same : ∀ a, contributes a = true → (a ∈ first ↔ a ∈ second))
    (nothing : ∀ a, contributes a = false → f a = []) :
    (first.flatMap f).Perm (second.flatMap f) := by
  have contributing (items : List α) : items.flatMap f = (items.filter contributes).flatMap f := by
    induction items with
    | nil => rfl
    | cons a rest ih =>
        cases isOne : contributes a with
        | true => simp [isOne, ih]
        | false => simp [isOne, ih, nothing a isOne]
  rw [contributing first, contributing second]
  refine List.Perm.flatMap_right f ?_
  refine (List.perm_ext_iff_of_nodup (firstDistinct.filter _) (secondDistinct.filter _)).mpr ?_
  intro a
  simp only [List.mem_filter]
  exact and_congr_left (same a)

/-- A procedure whose body could not be retrieved. -/
def Procedure.unretrieved (p : Procedure) : IssuePlace where
  phase := "augment"
  kind := .extractionFailure
  procedure := some p.signature
  statement := .null

/-- A target of which it could not be told whether it is application code. -/
def Procedure.undescended (p : Procedure) : IssuePlace where
  phase := "augment"
  kind := .classificationFailure
  procedure := some p.signature
  statement := .null

/-- The statements of a body have different sites. -/
theorem Procedure.nodup_sites (p : Procedure) (body : List Statement) :
    ((p.placed body).map Prod.fst).Nodup := by
  have sites : (p.placed body).map Prod.fst = (body.zipIdx.map Prod.snd).map p.site := by
    simp only [placed, List.map_map]
    rfl
  rw [sites, List.zipIdx_map_snd]
  refine List.Nodup.map ?_ List.nodup_range'
  intro m n same
  simpa [site] using same

namespace Augmentation

/-- The call sites of a procedure whose body can be looked at. -/
def callsOf (i : Inspection) (p : Procedure) : List (Site × Statement) :=
  match i.body p with
  | .ok (some body) => (p.placed body).filter (·.2.isCall)
  | _ => []

section Visit

variable (rules : List DispatchRule) (context : DispatchRule.Context) (g : CallGraph)
  (i : Inspection) (p : Procedure)

/-- The edges that a visit adds. -/
def visitEdges : List CallEdge :=
  (callsOf i p).flatMap fun call => siteEdges context g i p call.1 call.2 rules

/-- The issues that a visit records about its own procedure. -/
def visitPlaces : List IssuePlace :=
  match i.body p with
  | .error _ => [p.unretrieved]
  | _ => (callsOf i p).flatMap fun call => sitePlaces context g i p call.1 call.2 rules

end Visit

theorem body_of_calls {i : Inspection} {p : Procedure} {call : Site × Statement}
    (isCall : call ∈ callsOf i p) :
    ∃ body, i.body p = .ok (some body) ∧ p.body = some body ∧ call ∈ p.placed body ∧
      call.2.isCall := by
  unfold callsOf at isCall
  split at isCall
  · rename_i body hasBody
    obtain ⟨isPlaced, calls⟩ := List.mem_filter.mp isCall
    have same := (Inspection.answer_eq_ok.mp hasBody).2
    exact ⟨body, hasBody, by simpa using same, isPlaced, calls⟩
  · cases isCall

theorem isSome_of_visitEdges {rules : List DispatchRule} {context : DispatchRule.Context}
    {g : CallGraph} {i : Inspection} {p : Procedure} {e : CallEdge}
    (isEdge : e ∈ visitEdges rules context g i p) : p.body.isSome := by
  obtain ⟨call, isCall, -⟩ := List.mem_flatMap.mp isEdge
  obtain ⟨body, -, hasBody, -⟩ := body_of_calls isCall
  simp [hasBody]

/-- An issue about a target that a walk did not follow. -/
def Excused (start : Inspection) (place : IssuePlace) : Prop :=
  ∃ i p fault, start.Later i ∧ i.program.Knows p ∧ i.isApplication p = .error fault ∧
    place = p.undescended

/-- What a walk adds between two states, up to order and besides issues about targets that were not
    followed. -/
structure Walked (start : Inspection) (before after : Augmentation) (edges : List CallEdge)
    (places : List IssuePlace) : Prop where
  edges : ∃ added, after.added = before.added ++ added ∧
    after.graph.edges = before.graph.edges ++ added ∧ ∀ e, e ∈ added ↔ e ∈ edges
  issues : ∃ recorded others,
    after.inspection.issues = before.inspection.issues ++ recorded ∧
      (recorded.map Issue.place).Perm (places ++ others) ∧ ∀ place ∈ others, Excused start place

variable {start : Inspection}

theorem Walked.refl (a : Augmentation) : Walked start a a [] [] :=
  ⟨⟨[], by simp, by simp, by simp⟩, [], [], by simp, by simp, by simp⟩

theorem Walked.trans {a b c : Augmentation} {edges edges' : List CallEdge}
    {places places' : List IssuePlace} (early : Walked start a b edges places)
    (late : Walked start b c edges' places') :
    Walked start a c (edges ++ edges') (places ++ places') := by
  obtain ⟨⟨added, isAdded, isEdge, members⟩, recorded, others, isRecorded, perm, excused⟩ := early
  obtain ⟨⟨added', isAdded', isEdge', members'⟩, recorded', others', isRecorded', perm', excused'⟩ :=
    late
  constructor
  · refine ⟨added ++ added', ?_, ?_, fun e => ?_⟩
    · rw [isAdded', isAdded, List.append_assoc]
    · rw [isEdge', isEdge, List.append_assoc]
    · simp only [List.mem_append, members, members']
  · refine ⟨recorded ++ recorded', others ++ others', ?_, ?_, ?_⟩
    · rw [isRecorded', isRecorded, List.append_assoc]
    · rw [List.map_append]
      refine (perm.append perm').trans ?_
      simp only [List.append_assoc]
      exact (List.perm_append_comm_assoc others places' others').append_left places
    · exact List.forall_mem_append.mpr ⟨excused, excused'⟩

/-- Marking procedures as visited adds nothing. -/
theorem Walked.marked {a b : Augmentation} {visited : List Text} {edges : List CallEdge}
    {places : List IssuePlace} (walked : Walked start { a with visited } b edges places) :
    Walked start a b edges places :=
  ⟨walked.edges, walked.issues⟩

theorem Adds.walked {a b : Augmentation} {added edges : List CallEdge} {places : List IssuePlace}
    (adds : Adds a b added places) (members : ∀ e, e ∈ added ↔ e ∈ edges) :
    Walked start a b edges places := by
  obtain ⟨isAdded, isEdge, recorded, isRecorded, places⟩ := adds
  exact ⟨⟨added, isAdded, isEdge, members⟩, recorded, [], isRecorded, by simp [places], by simp⟩

/-! ## Following edges -/

theorem isApplication_fields (a : Augmentation) (p : Procedure) :
    (a.isApplication p).2.graph = a.graph ∧
      (a.isApplication p).2.inspection.program = a.inspection.program ∧
      (a.isApplication p).2.inspection.failures = a.inspection.failures := by
  unfold isApplication
  split <;> exact ⟨rfl, rfl, rfl⟩

theorem descend_fields (a : Augmentation) (targets : List Procedure) (edges : List CallEdge) :
    (a.descend targets edges).1.graph = a.graph ∧
      (a.descend targets edges).1.inspection.program = a.inspection.program := by
  induction edges generalizing a targets with
  | nil => exact ⟨rfl, rfl⟩
  | cons e rest ih =>
      unfold descend
      split
      · exact ih a targets
      · obtain ⟨graph, program, -⟩ := isApplication_fields a e.target
        obtain ⟨graphRest, programRest⟩ := ih (a.isApplication e.target).2 _
        exact ⟨graphRest.trans graph, programRest.trans program⟩

theorem walked_isApplication {a : Augmentation} {p : Procedure} (later : start.Later a.inspection)
    (known : a.inspection.program.Knows p) :
    Walked start a (a.isApplication p).2 [] [] := by
  unfold isApplication
  split
  · exact .refl a
  · rename_i fault refused
    refine ⟨⟨[], by simp [inspect], by simp [inspect], by simp⟩, [_], [p.undescended], rfl, ?_, ?_⟩
    · exact .refl _
    · simpa using ⟨a.inspection, p, fault, later, known, refused, rfl⟩

theorem walked_descend {a : Augmentation} (targets : List Procedure) {edges : List CallEdge}
    (later : start.Later a.inspection)
    (known : ∀ e ∈ edges, a.inspection.program.Knows e.target) :
    Walked start a (a.descend targets edges).1 [] [] := by
  induction edges generalizing a targets with
  | nil => exact .refl a
  | cons e rest ih =>
      obtain ⟨eKnown, restKnown⟩ := List.forall_mem_cons.mp known
      unfold descend
      split
      · exact ih targets later restKnown
      · obtain ⟨-, program, failures⟩ := isApplication_fields a e.target
        have noted := Inspection.Later.of_eq failures program
        refine (walked_isApplication later eKnown).trans ?_
        exact ih _ (later.trans noted) fun f listed => noted.program.knows (restKnown f listed)

/-- A procedure that a walk may visit. -/
def Eligible (program : Program) (p : Procedure) : Prop :=
  program.Knows p ∧ program.config.isApplicationClass p.declaringClass = true

theorem Eligible.later {before after : Program} {p : Procedure} (eligible : Eligible before p)
    (later : before.Later after) : Eligible after p :=
  ⟨later.knows eligible.1, later.config ▸ eligible.2⟩

theorem eligible_of_isApplication {i : Inspection} {p : Procedure}
    (coherent : i.program.Coherent) (named : i.program.Named) (known : i.program.Knows p)
    (answered : i.isApplication p = .ok true) : Eligible i.program p := by
  have value := (Inspection.answer_eq_ok.mp answered).2
  rw [coherent.isApplication_eq named known] at value
  exact ⟨known, by simpa using value⟩

theorem isApplication_eq_true {a : Augmentation} {p : Procedure}
    (answer : (a.isApplication p).1 = true) : a.inspection.isApplication p = .ok true := by
  unfold isApplication at answer
  split at answer
  · rename_i given
    exact given.trans (congrArg _ answer)
  · cases answer

theorem eligible_descend {a : Augmentation} (targets : List Procedure) {edges : List CallEdge}
    (coherent : a.inspection.program.Coherent) (named : a.inspection.program.Named)
    (known : ∀ e ∈ edges, a.inspection.program.Knows e.target) :
    ∀ p ∈ (a.descend targets edges).2, p ∈ targets ∨ Eligible a.inspection.program p := by
  induction edges generalizing a targets with
  | nil => exact fun p listed => .inl listed
  | cons e rest ih =>
      obtain ⟨eKnown, restKnown⟩ := List.forall_mem_cons.mp known
      unfold descend
      split
      · exact ih targets coherent named restKnown
      · obtain ⟨-, program, -⟩ := isApplication_fields a e.target
        have descended := ih (a := (a.isApplication e.target).2)
          (if (a.isApplication e.target).1 then e.target :: targets else targets)
        rw [program] at descended
        intro p listed
        rcases descended coherent named restKnown p listed with isTarget | eligible
        · by_cases answer : (a.isApplication e.target).1
          · rw [if_pos answer] at isTarget
            rcases List.mem_cons.mp isTarget with rfl | old
            · exact .inr (eligible_of_isApplication coherent named eKnown
                (isApplication_eq_true answer))
            · exact .inl old
          · rw [if_neg answer] at isTarget
            exact .inl isTarget
        · exact .inr eligible

/-! ## Visiting one procedure -/

section Visit

variable (rules : List DispatchRule) {context : DispatchRule.Context} {g : CallGraph}
  {i : Inspection} {a : Augmentation} {p : Procedure}

theorem edgesOutOf_walkBody {other : Site} (targets : List Procedure)
    {body : List (Site × Statement)} (elsewhere : other ∉ body.map Prod.fst) :
    (walkBody rules context p a targets body).1.graph.edgesOutOf other =
      a.graph.edgesOutOf other := by
  induction body generalizing a targets with
  | nil => rfl
  | cons placed rest ih =>
      obtain ⟨site, s⟩ := placed
      simp only [List.map_cons, List.mem_cons, not_or] at elsewhere
      unfold walkBody
      split
      · dsimp only
        rw [ih _ elsewhere.2, (descend_fields _ _ _).1,
          edgesOutOf_applyRules context p (Ne.symm elsewhere.1) s a rules]
      · exact ih targets elsewhere.2

theorem edgesOutOf_visit {other : Site} (elsewhere : ∀ position, other ≠ p.site position) :
    (visit rules context p a).1.graph.edgesOutOf other = a.graph.edgesOutOf other := by
  unfold visit
  dsimp only
  split
  · rfl
  · rfl
  · refine edgesOutOf_walkBody rules [] fun listed => ?_
    obtain ⟨placed, isPlaced, isSite⟩ := List.mem_map.mp listed
    obtain ⟨position, located⟩ := Procedure.site_of_placed isPlaced
    exact elsewhere position (isSite.symm.trans located)

/-- The state of a walk over a program since it started. -/
structure Underway (start i : Inspection) (a : Augmentation) : Prop where
  grown : CallGraph.Grown start a.graph a.inspection
  alike : i.Alike a.inspection

variable (coherent : start.program.Coherent) (named : start.program.Named)
  (entriesKnown : ∀ p ∈ context.entries, start.program.Knows p)

include coherent named entriesKnown

/-- What happens at one call site: the rules are applied, and new edges are followed. -/
theorem followSite_spec {site : Site} {s : Statement} {targets : List Procedure}
    (underway : Underway start i a) (sited : ∃ position, site = p.site position)
    (fresh : a.graph.edgesOutOf site = g.edgesOutOf site)
    (eligible : ∀ q ∈ targets, Eligible a.inspection.program q) :
    let applied := applyRules context p site s a rules
    let followed := applied.1.descend targets applied.2
    Walked start a followed.1 (siteEdges context g i p site s rules)
        (sitePlaces context g i p site s rules) ∧
      Underway start i followed.1 ∧
      ∀ q ∈ followed.2, Eligible followed.1.inspection.program q := by
  intro applied followed
  have laterNow := underway.grown.later.program
  have coherentNow := laterNow.coherent coherent
  have knownNow := fun q listed => laterNow.knows (entriesKnown q listed)
  obtain ⟨adds, members⟩ :=
    applyRules_spec (g := g) (s := s) underway.alike fresh coherentNow knownNow rules
  have grownApplied := grown_applyRules coherent entriesKnown s rules sited underway.grown
  have grownFollowed := grown_descend targets applied.2 grownApplied
  have laterApplied := grownApplied.later
  have known : ∀ e ∈ applied.2, applied.1.inspection.program.Knows e.target := by
    intro e isNew
    refine grownApplied.fits.knows e ?_
    rw [adds.edges]
    exact List.mem_append_right _ isNew
  refine ⟨?_, ⟨grownFollowed, ?_⟩, ?_⟩
  · simpa using (adds.walked members).trans (walked_descend targets laterApplied known)
  · exact underway.alike.trans ((alike_applyRules rules context p site s a).trans
      (alike_descend _ _ _))
  · have namedApplied := laterApplied.program.named named
    have sinceThen := (grown_applyRules coherentNow knownNow s rules sited
      ⟨.refl _, underway.grown.fits⟩).later.program
    intro q listed
    rw [(descend_fields applied.1 targets applied.2).2]
    rcases eligible_descend targets (laterApplied.program.coherent coherent) namedApplied known q
      listed with isTarget | isEligible
    · exact (eligible q isTarget).later sinceThen
    · exact isEligible

theorem walkBody_spec {targets : List Procedure} {body : List (Site × Statement)}
    (underway : Underway start i a)
    (sited : ∀ placed ∈ body, ∃ position, placed.1 = p.site position)
    (distinct : (body.map Prod.fst).Nodup)
    (fresh : ∀ placed ∈ body, a.graph.edgesOutOf placed.1 = g.edgesOutOf placed.1)
    (eligible : ∀ q ∈ targets, Eligible a.inspection.program q) :
    let result := walkBody rules context p a targets body
    Walked start a result.1
        ((body.filter (·.2.isCall)).flatMap fun call =>
          siteEdges context g i p call.1 call.2 rules)
        ((body.filter (·.2.isCall)).flatMap fun call =>
          sitePlaces context g i p call.1 call.2 rules) ∧
      ∀ q ∈ result.2, Eligible result.1.inspection.program q := by
  induction body generalizing a targets with
  | nil => exact ⟨.refl a, eligible⟩
  | cons placed rest ih =>
      obtain ⟨site, s⟩ := placed
      obtain ⟨firstSited, restSited⟩ := List.forall_mem_cons.mp sited
      obtain ⟨firstFresh, restFresh⟩ := List.forall_mem_cons.mp fresh
      simp only [List.map_cons, List.nodup_cons] at distinct
      dsimp only
      unfold walkBody
      by_cases isCall : s.isCall
      · simp only [List.filter_cons, isCall, if_true, List.flatMap_cons]
        obtain ⟨walked, underwayNow, eligibleNow⟩ :=
          followSite_spec rules coherent named entriesKnown (s := s) underway firstSited firstFresh
            eligible
        have freshNow : ∀ placed ∈ rest,
            (descend (applyRules context p site s a rules).1 targets
              (applyRules context p site s a rules).2).1.graph.edgesOutOf placed.1 =
              g.edgesOutOf placed.1 := by
          intro placed inRest
          have different : site ≠ placed.1 := fun same =>
            distinct.1 (List.mem_map.mpr ⟨placed, inRest, same.symm⟩)
          rw [(descend_fields _ _ _).1, edgesOutOf_applyRules context p different]
          exact restFresh placed inRest
        obtain ⟨walkedRest, eligibleRest⟩ := ih underwayNow restSited distinct.2 freshNow eligibleNow
        exact ⟨walked.trans walkedRest, eligibleRest⟩
      · simp only [List.filter_cons, isCall]
        exact ih underway restSited distinct.2 restFresh eligible

theorem visit_spec (underway : Underway start i a)
    (fresh : ∀ position, a.graph.edgesOutOf (p.site position) = g.edgesOutOf (p.site position)) :
    let result := visit rules context p a
    Walked start a result.1 (visitEdges rules context g i p) (visitPlaces rules context g i p) ∧
      ∀ q ∈ result.2, Eligible result.1.inspection.program q := by
  unfold visit visitEdges visitPlaces callsOf
  dsimp only
  rw [underway.alike.body p]
  cases hasBody : i.body p with
  | error fault =>
      refine ⟨⟨⟨[], by simp [inspect], by simp [inspect], by simp⟩, [_], [], rfl, ?_, by simp⟩, by simp⟩
      exact .refl _
  | ok body =>
      cases body with
      | none =>
          refine ⟨⟨⟨[], by simp [inspect], by simp [inspect], by simp⟩, [], [], ?_, by simp, by simp⟩,
            by simp⟩
          exact (List.append_nil _).symm
      | some body =>
          have nothing : ∀ q ∈ ([] : List Procedure), Eligible a.inspection.program q := by simp
          have freshBody : ∀ placed ∈ p.placed body,
              a.graph.edgesOutOf placed.1 = g.edgesOutOf placed.1 := by
            intro placed isPlaced
            obtain ⟨position, isSite⟩ := Procedure.site_of_placed isPlaced
            rw [isSite]
            exact fresh position
          obtain ⟨walked, eligible⟩ := walkBody_spec rules coherent named entriesKnown
            (a := { a with visited := p.signature :: a.visited }) ⟨underway.grown, underway.alike⟩
            (fun placed isPlaced => Procedure.site_of_placed isPlaced) (p.nodup_sites body) freshBody
            nothing
          exact ⟨walked.marked, eligible⟩

end Visit

/-! ## Walking -/

/-- What is known after some visits, the last one first. -/
structure Visits (rules : List DispatchRule) (context : DispatchRule.Context) (g : CallGraph)
    (start i : Inspection) (initial : Augmentation) (visits : List Procedure) (a : Augmentation) :
    Prop where
  steps : visits.foldr (fun p a => (visit rules context p a).1) initial = a
  underway : Underway start i a
  visited : a.visited = visits.map (·.signature)
  distinct : (visits.map (·.signature)).Nodup
  eligible : ∀ p ∈ visits, Eligible a.inspection.program p
  fresh : ∀ site, (∀ p ∈ visits, ∀ position, site ≠ p.site position) →
    a.graph.edgesOutOf site = g.edgesOutOf site
  walked : Walked start initial a (visits.reverse.flatMap (visitEdges rules context g i))
    (visits.reverse.flatMap (visitPlaces rules context g i))

section Walk

variable {rules : List DispatchRule} {context : DispatchRule.Context} {g : CallGraph}
  {i : Inspection} {initial a : Augmentation} {visits : List Procedure} {p : Procedure}

/-- Whoever has the signature of a visited procedure was visited. -/
theorem Visits.mem_of_visited (state : Visits rules context g start i initial visits a)
    (known : a.inspection.program.Knows p) (wasVisited : p.signature ∈ a.visited) : p ∈ visits := by
  rw [state.visited] at wasVisited
  obtain ⟨q, listed, same⟩ := List.mem_map.mp wasVisited
  rwa [known.eq (state.eligible q listed).1 same.symm]

variable (coherent : start.program.Coherent) (named : start.program.Named)
  (entriesKnown : ∀ p ∈ context.entries, start.program.Knows p)

include coherent named entriesKnown

theorem Visits.visit (state : Visits rules context g start i initial visits a)
    (isNew : p.signature ∉ a.visited) (isEligible : Eligible a.inspection.program p) :
    Visits rules context g start i initial (p :: visits) (visit rules context p a).1 ∧
      a.inspection.program.Later (Augmentation.visit rules context p a).1.inspection.program ∧
      ∀ q ∈ (Augmentation.visit rules context p a).2,
        Eligible (Augmentation.visit rules context p a).1.inspection.program q := by
  have unlike : ∀ q ∈ visits, p.signature ≠ q.signature := by
    intro q listed same
    rw [state.visited, same] at isNew
    exact isNew (List.mem_map_of_mem listed)
  have freshHere : ∀ position,
      a.graph.edgesOutOf (p.site position) = g.edgesOutOf (p.site position) := fun position =>
    state.fresh _ fun q listed position' same =>
      unlike q listed (Procedure.signature_eq_of_site same)
  obtain ⟨walked, eligible⟩ :=
    visit_spec rules coherent named entriesKnown state.underway freshHere
  have laterNow := state.underway.grown.later.program
  have since := (grown_visit (laterNow.coherent coherent)
    (fun q listed => laterNow.knows (entriesKnown q listed)) rules p
    ⟨.refl _, state.underway.grown.fits⟩).later.program
  refine ⟨?_, since, eligible⟩
  constructor
  case steps => rw [List.foldr_cons, state.steps]
  case underway =>
    exact ⟨grown_visit coherent entriesKnown rules p state.underway.grown,
      state.underway.alike.trans (alike_visit rules context p a)⟩
  case visited => rw [visited_visit, state.visited, List.map_cons]
  case distinct =>
    rw [List.map_cons, List.nodup_cons]
    exact ⟨state.visited ▸ isNew, state.distinct⟩
  case eligible =>
    exact List.forall_mem_cons.mpr
      ⟨isEligible.later since, fun q listed => (state.eligible q listed).later since⟩
  case fresh =>
    intro site elsewhere
    obtain ⟨notHere, others⟩ := List.forall_mem_cons.mp elsewhere
    exact (edgesOutOf_visit rules notHere).trans (state.fresh site others)
  case walked =>
    simpa [List.flatMap_append] using state.walked.trans walked

theorem Visits.walk (declared : List Text) {worklist : List Procedure}
    (state : Visits rules context g start i initial visits a)
    (eligible : ∀ p ∈ worklist, Eligible a.inspection.program p) :
    ∃ final, Visits rules context g start i initial final (walk rules context declared worklist a) ∧
      visits ⊆ final ∧ worklist ⊆ final := by
  fun_induction Augmentation.walk rules context declared worklist a generalizing visits with
  | case1 a => exact ⟨visits, state, List.Subset.refl _, List.nil_subset _⟩
  | case2 p worklist a wasVisited ih =>
      obtain ⟨isEligible, others⟩ := List.forall_mem_cons.mp eligible
      obtain ⟨final, reached, kept, covered⟩ := ih state others
      have isVisit := kept (state.mem_of_visited isEligible.1 wasVisited)
      exact ⟨final, reached, kept, List.cons_subset.mpr ⟨isVisit, covered⟩⟩
  | case3 =>
      rename_i p worklist a isNew next isDeclared ih
      obtain ⟨isEligible, others⟩ := List.forall_mem_cons.mp eligible
      obtain ⟨stateNext, since, found⟩ :=
        state.visit coherent named entriesKnown isNew isEligible
      -- What the visit found comes before the rest of the worklist.
      obtain ⟨final, reached, kept, covered⟩ := ih stateNext
        (List.forall_mem_append.mpr ⟨found, fun q listed => (others q listed).later since⟩)
      obtain ⟨isVisit, kept⟩ := List.cons_subset.mp kept
      exact ⟨final, reached, kept,
        List.cons_subset.mpr ⟨isVisit, (List.append_subset.mp covered).2⟩⟩
  | case4 =>
      rename_i p worklist a isNew next isUndeclared ih
      obtain ⟨isEligible, others⟩ := List.forall_mem_cons.mp eligible
      obtain ⟨stateNext, since, found⟩ :=
        state.visit coherent named entriesKnown isNew isEligible
      obtain ⟨final, reached, kept, covered⟩ :=
        ih stateNext fun q listed => (others q listed).later since
      obtain ⟨isVisit, kept⟩ := List.cons_subset.mp kept
      exact ⟨final, reached, kept, List.cons_subset.mpr ⟨isVisit, covered⟩⟩

theorem Visits.extend (declared : List Text) {roots : List Procedure}
    (state : Visits rules context g start i initial visits a)
    (eligible : ∀ p ∈ roots, Eligible start.program p) :
    ∃ final, Visits rules context g start i initial final
        (extend rules context declared a roots) ∧
      visits ⊆ final ∧ roots ⊆ final := by
  induction roots generalizing a visits with
  | nil => exact ⟨visits, state, List.Subset.refl _, List.nil_subset _⟩
  | cons root rest ih =>
      obtain ⟨rootEligible, others⟩ := List.forall_mem_cons.mp eligible
      have eligibleNow := rootEligible.later state.underway.grown.later.program
      simp only [Augmentation.extend, List.foldl_cons]
      by_cases wasVisited : root.signature ∈ a.visited
      · obtain ⟨final, reached, kept, covered⟩ := ih state others
        have isVisit := kept (state.mem_of_visited eligibleNow.1 wasVisited)
        rw [if_pos (by simpa using wasVisited)]
        exact ⟨final, reached, kept, List.cons_subset.mpr ⟨isVisit, covered⟩⟩
      · obtain ⟨middle, stateNext, kept, isVisit⟩ := state.walk coherent named entriesKnown
          declared (List.forall_mem_singleton.mpr eligibleNow)
        obtain ⟨final, reached, keptRest, covered⟩ := ih stateNext others
        rw [if_neg (by simpa using wasVisited)]
        exact ⟨final, reached, List.Subset.trans kept keptRest,
          List.cons_subset.mpr ⟨keptRest (isVisit List.mem_cons_self), covered⟩⟩

end Walk

/-! ## A whole run -/

section Run

variable (rules : List DispatchRule) (config : Config) {i : Inspection} {g : CallGraph}

/-- The augmentation of a graph before its first run. -/
def fresh (i : Inspection) (g : CallGraph) : Augmentation := { inspection := i, graph := g }

variable (coherent : i.program.Coherent) (named : i.program.Named) (fits : g.Fits i.program)

include coherent named fits

omit named fits in
theorem later_begun : i.Later (begun config (fresh i g)).inspection :=
  (Dispatch.runnableEntries_spec config coherent).1.trans (.of_eq rfl rfl)

/-- A run visits every application procedure, and besides these only procedures without a body. -/
theorem exists_visits :
    ∃ visits, Visits rules (contextOf config (fresh i g)) g (begun config (fresh i g)).inspection i
        (begun config (fresh i g)) visits (walked rules config (fresh i g)) ∧
      i.program.applicationProcedures ⊆ visits ∧
      ∀ p ∈ visits, p.body.isSome → p ∈ i.program.applicationProcedures := by
  have known := (Dispatch.runnableEntries_spec config coherent).2
  have alike := alike_begun config (fresh i g)
  have laterBegun := later_begun config (g := g) coherent
  have coherentBegun := laterBegun.program.coherent coherent
  have namedBegun := laterBegun.program.named named
  have state : Visits rules (contextOf config (fresh i g)) g (begun config (fresh i g)).inspection i
      (begun config (fresh i g)) [] (begun config (fresh i g)) :=
    { steps := rfl
      underway := ⟨⟨.refl _, fits.later laterBegun.program⟩, alike⟩
      visited := rfl
      distinct := List.nodup_nil
      eligible := by simp
      fresh := fun _ _ => rfl
      walked := .refl _ }
  obtain ⟨visits, reached, -, covered⟩ := state.extend coherentBegun namedBegun known
    (declaredSignatures (begun config (fresh i g)).inspection.program)
    (fun p listed => coherentBegun.knows_of_application namedBegun listed)
  rw [alike.program.applicationProcedures] at covered
  refine ⟨visits, reached, covered, fun p listed hasBody => ?_⟩
  -- Whatever is visited is known and application code, and phantoms have no body.
  obtain ⟨known, accepted⟩ := reached.eligible p listed
  have laterWalked := reached.underway.grown.later.program
  rw [← reached.underway.alike.program.applicationProcedures]
  exact (laterWalked.coherent coherentBegun).mem_applicationProcedures
    (laterWalked.named namedBegun) known accepted hasBody

theorem edges_run :
    (run rules config (fresh i g)).graph.edges =
      g.edges ++ (run rules config (fresh i g)).added := by
  obtain ⟨visits, reached, -⟩ := exists_visits rules config coherent named fits
  obtain ⟨added, isAdded, isEdge, -⟩ := reached.walked.edges
  rw [graph_run, added_run, isAdded]
  exact isEdge

/-- No edge is added twice. -/
theorem pairwise_added_run :
    (run rules config (fresh i g)).added.Pairwise fun e f =>
      e.site = f.site → e.target.signature ≠ f.target.signature := by
  have simple := (grown_run (a := fresh i g) rules config coherent fits).fits.indexed.simple
  rw [edges_run rules config coherent named fits] at simple
  exact (List.pairwise_append.mp simple).2.1

/-- The edges that a run adds are those that the application procedures get, each on its own. -/
theorem mem_added_run (e : CallEdge) :
    e ∈ (run rules config (fresh i g)).added ↔
      ∃ p ∈ i.program.applicationProcedures,
        e ∈ visitEdges rules (contextOf config (fresh i g)) g i p := by
  obtain ⟨visits, reached, covered, declared⟩ := exists_visits rules config coherent named fits
  obtain ⟨added, isAdded, -, members⟩ := reached.walked.edges
  have isAdded : (walked rules config (fresh i g)).added = added := isAdded
  rw [added_run, isAdded, members]
  simp only [List.mem_flatMap, List.mem_reverse]
  constructor
  · rintro ⟨p, isVisit, isEdge⟩
    exact ⟨p, declared p isVisit (isSome_of_visitEdges isEdge), isEdge⟩
  · rintro ⟨p, listed, isEdge⟩
    exact ⟨p, covered listed, isEdge⟩

/-- A run first writes down the classes that cannot be classified, then what the application procedures
    give rise to, each on its own. -/
theorem issues_run :
    ∃ unclassified recorded,
      (run rules config (fresh i g)).inspection.issues = i.issues ++ unclassified ++ recorded ∧
      (∀ issue ∈ unclassified, ∃ c ∈ i.program.applicationClasses, c.isInterface = false ∧
        (∀ entry, ((Dispatch.entryOf c).attempt i).1 ≠ .ok entry) ∧
        ∃ fault, issue = c.unclassified fault) ∧
      (∀ c ∈ i.program.applicationClasses, c.isInterface = false →
        (∀ entry, ((Dispatch.entryOf c).attempt i).1 ≠ .ok entry) →
        ∃ fault, c.unclassified fault ∈ unclassified) ∧
      (∀ p ∈ i.program.applicationProcedures,
        visitPlaces rules (contextOf config (fresh i g)) g i p ⊆ recorded.map Issue.place) ∧
      (i.failures = [] → (i.program.applicationProcedures.map (·.signature)).Nodup →
        (recorded.map Issue.place).Perm (i.program.applicationProcedures.flatMap
          (visitPlaces rules (contextOf config (fresh i g)) g i))) := by
  obtain ⟨visits, reached, covered, declared⟩ := exists_visits rules config coherent named fits
  obtain ⟨unclassified, isUnclassified, only, complete⟩ :=
    Dispatch.issues_entriesOf config i.program.applicationClasses (.refl i)
  obtain ⟨recorded, others, isRecorded, perm, excused⟩ := reached.walked.issues
  refine ⟨unclassified, recorded, ?_, only, complete, fun p listed => ?_, fun noFailures distinct => ?_⟩
  · have begins : (begun config (fresh i g)).inspection.issues = i.issues ++ unclassified :=
      isUnclassified
    rw [issues_run_walked, ← begins]
    exact isRecorded
  · intro place isPlace
    refine perm.mem_iff.mpr (List.mem_append_left _ (List.mem_flatMap.mpr ⟨p, ?_, isPlace⟩))
    exact List.mem_reverse.mpr (covered listed)
  · have laterBegun := later_begun config (g := g) coherent
    have reliable : Inspection.Reliable (begun config (fresh i g)).inspection :=
      ⟨laterBegun.failures.trans noFailures, laterBegun.program.coherent coherent,
        laterBegun.program.named named⟩
    -- Without failures every target can be told from library code.
    have noOthers : others = [] := by
      refine List.eq_nil_iff_forall_not_mem.mpr fun place isOther => ?_
      obtain ⟨j, p, fault, later, known, refused, -⟩ := excused place isOther
      cases ((reliable.later later).isApplication known).symm.trans refused
    rw [noOthers, List.append_nil] at perm
    refine perm.trans (((List.reverse_perm visits).flatMap_right _).trans ?_)
    refine flatMap_perm_of_contributing (·.body.isSome) (.of_map _ reached.distinct)
      (.of_map _ distinct) (fun p hasBody => ?_) fun p noBody => ?_
    · exact ⟨fun isVisit => declared p isVisit hasBody, fun listed => covered listed⟩
    · have answered : i.body p = .ok none := by
        rw [Inspection.Reliable.body ⟨noFailures, coherent, named⟩ p]
        simpa using noBody
      simp only [visitPlaces, callsOf, answered, List.flatMap_nil]

end Run

end Augmentation

/-- A first run with all rules and the configuration of the program. -/
def Augmentation.ofGraph (i : Inspection) (g : CallGraph) : Augmentation :=
  run DispatchRule.all i.program.config (fresh i g)

namespace Session

/-- The configuration of a fresh augmenter: the given one, or else that of the program. -/
def augmenterConfig (s : Session) : Option Json → Except Fault Config
  | some document => Config.ofDocument document
  | none => .ok s.inspection.program.config

theorem augmenterFor_fresh (s : Session) (config : Option Json) :
    augmenterFor true config none s =
      match s.augmenterConfig config with
      | .ok chosen => .ok { config := chosen, rules := DispatchRule.all } s
      | .error fault => .error fault s := by
  have started : (get : SessionM Session) s = .ok s s := rfl
  unfold augmenterFor augmenterConfig
  rw [bind_of_ok started]
  dsimp only
  cases config with
  | none => cases s.augmenter <;> rfl
  | some document =>
      cases read : Config.ofDocument document with
      | ok chosen | error fault =>
          simp only [read]
          cases s.augmenter <;> rfl

/-- The command that augments afresh runs over the graph of the session and returns the added edges. -/
theorem step_augment_fresh {s : Session} {config : Option Json} {chosen : Config}
    (isChosen : s.augmenterConfig config = .ok chosen) (named : s.inspection.program.Named) :
    ∃ after, step (.augment true config none) s =
        (.ok (.edges (Augmentation.run DispatchRule.all chosen
          (.fresh s.inspection s.graph)).added), after) ∧
      after.graph = (Augmentation.run DispatchRule.all chosen
        (.fresh s.inspection s.graph)).graph ∧
      after.inspection = (Augmentation.run DispatchRule.all chosen
        (.fresh s.inspection s.graph)).inspection := by
  have required : Inspecting.requireNames s.inspection = .ok () s.inspection :=
    Inspecting.ask_of_ok (Program.requireNames_of_named named)
  let augmenter : Augmenter := { config := chosen, rules := DispatchRule.all }
  let ready : Session := { s with augmenter := some augmenter }
  have prepared : augmenterFor true config none s = .ok augmenter s := by
    rw [augmenterFor_fresh, isChosen]
  have stored : (modify fun s => { s with augmenter := some augmenter } : SessionM Unit) s =
      .ok () ready := rfl
  have checked : SessionM.inspect Inspecting.requireNames ready = .ok () ready := by
    simp only [SessionM.inspect, ready, required]
  have started : (get : SessionM Session) ready = .ok ready ready := rfl
  have executed : ∃ after, augment true config none s =
      .ok (.edges (Augmentation.run DispatchRule.all chosen
        (.fresh s.inspection s.graph)).added) after ∧
      after.graph = (Augmentation.run DispatchRule.all chosen (.fresh s.inspection s.graph)).graph ∧
      after.inspection =
        (Augmentation.run DispatchRule.all chosen (.fresh s.inspection s.graph)).inspection := by
    unfold augment
    rw [bind_of_ok prepared, bind_of_ok stored, bind_of_ok checked, bind_of_ok started]
    exact ⟨_, rfl, rfl, rfl⟩
  obtain ⟨after, returned, fields⟩ := executed
  have same : execute (.augment true config none) = augment true config none := rfl
  exact ⟨after, by simp only [step, same, returned], fields⟩

/-- A fresh augmenter is refused only over its configuration or over the names of classes. -/
theorem of_step_augment_fresh {s after : Session} {config : Option Json} {reply : Reply}
    (stepped : step (.augment true config none) s = (.ok reply, after)) :
    (∃ chosen, s.augmenterConfig config = .ok chosen) ∧ s.inspection.program.Named := by
  have same : execute (.augment true config none) = augment true config none := rfl
  have executed : augment true config none s = .ok reply after := by
    unfold step at stepped
    rw [same] at stepped
    split at stepped <;> cases stepped
    assumption
  obtain ⟨augmenter, prepared, isPrepared, others⟩ := ok_of_bind executed
  obtain ⟨done, ready, stored, others⟩ := ok_of_bind others
  obtain ⟨done, checked, required, others⟩ := ok_of_bind others
  rw [augmenterFor_fresh] at isPrepared
  cases isChosen : s.augmenterConfig config with
  | error fault =>
      rw [isChosen] at isPrepared
      cases isPrepared
  | ok chosen =>
      rw [isChosen] at isPrepared
      cases isPrepared
      cases stored
      refine ⟨⟨chosen, rfl⟩, Program.named_of_requireNames ?_⟩
      unfold SessionM.inspect at required
      cases asked : Inspecting.requireNames s.inspection with
      | error fault j =>
          simp only [asked] at required
          cases required
      | ok done j => exact (Inspecting.ok_of_ask asked).2

theorem step_augment {i : Inspection} (named : i.program.Named) (g : CallGraph) :
    ∃ after, step (.augment true none none) { inspection := i, graph := g } =
        (.ok (.edges (Augmentation.ofGraph i g).added), after) ∧
      after.graph = (Augmentation.ofGraph i g).graph ∧
      after.inspection = (Augmentation.ofGraph i g).inspection := by
  have isChosen : augmenterConfig { inspection := i, graph := g } none = .ok i.program.config := rfl
  exact step_augment_fresh isChosen named

end Session

end CallWeight
