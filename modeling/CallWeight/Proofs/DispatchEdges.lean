import CallWeight.Proofs.AugmentationWalk
import CallWeight.Proofs.BatchRuns
import CallWeight.Proofs.DispatchTargets
import CallWeight.Proofs.LoadedPrograms

/-! # The edges that a call graph lacks

If no question fails, the rules decide about a call site as `Program.Dispatches` says. So augmenting the
graph of a program that was read from a document adds exactly the edges that its procedures lack, no
matter in which order the walk comes across them.
-/

namespace CallWeight

/-! ## One call site -/

/-- The fallback goes to the procedure that is invoked, if the call site has no edge. -/
theorem DispatchRule.attempt_fallback {i : Inspection} (reliable : i.Reliable) (context : Context)
    (g : CallGraph) (caller : Procedure) (site : Site) {s : Statement} {signature : Text}
    (invoked : s.invokedMethod = some (.text signature)) {p : Procedure}
    (named : i.program.Names signature p) :
    ((fallback.judge context g caller site s).attempt i).1 =
      .ok (if (g.edgesOutOf site).isEmpty then .targets [p] else .pass) := by
  simp only [judge, invoked]
  split
  · refine (Inspecting.attempt_map _ (fun p => Verdict.targets [p]) i).trans ?_
    rw [Inspecting.attempt_procedure reliable.noFailures, named]
    rfl
  · rfl

namespace Augmentation

section Site

variable {i : Inspection} {context : DispatchRule.Context}
  (configured : context.config = i.program.config) (g : CallGraph) (caller : Procedure)
  (site : Site) {s : Statement} {signature : Text}
  (invoked : s.invokedMethod = some (.text signature))

include configured invoked

theorem ruling_of_submitsNot (submitsNot : signature ∉ i.program.config.submitSignatures)
    (rest : List DispatchRule) :
    ruling context g i caller site s (.submit :: rest) = ruling context g i caller site s rest := by
  have judged : DispatchRule.submit.judge context g caller site s = pure .pass := by
    simp only [DispatchRule.judge, invoked, configured, DispatchRule.isAmong_text, submitsNot,
      if_false]
  simp only [ruling, judged, Inspecting.attempt_pure]

theorem starts_iff :
    DispatchRule.starts context.config s = true ↔
      signature ∈ i.program.config.threadStartSignatures := by
  simp only [DispatchRule.starts, invoked, configured, Option.any_some, DispatchRule.isAmong_text]

theorem ruling_of_starts (submitsNot : signature ∉ i.program.config.submitSignatures)
    (starts : signature ∈ i.program.config.threadStartSignatures) :
    ruling context g i caller site s DispatchRule.all =
      .linked .start (context.entries.filter (·.signature ≠ caller.signature)) := by
  unfold DispatchRule.all
  rw [ruling_of_submitsNot configured g caller site invoked submitsNot]
  simp only [ruling, DispatchRule.attempt_start, (starts_iff configured invoked).mpr starts, if_true]

variable (reliable : i.Reliable)

include reliable

theorem ruling_of_submits (submits : signature ∈ i.program.config.submitSignatures) :
    (∃ p, i.program.TaskEntry s p ∧
      ruling context g i caller site s DispatchRule.all = .linked .submit [p]) ∨
    (∀ p, ¬ i.program.TaskEntry s p) ∧
      ruling context g i caller site s DispatchRule.all = .ignored := by
  have judged : DispatchRule.submit.judge context g caller site s =
      DispatchRule.submitted context caller s := by
    simp only [DispatchRule.judge, invoked, configured, DispatchRule.isAmong_text.mpr submits, if_true]
  have answers := DispatchRule.attempt_submitted_iff reliable context caller s
  unfold DispatchRule.all ruling
  rw [judged]
  by_cases resolved : ∃ p, i.program.TaskEntry s p
  · obtain ⟨p, entry⟩ := resolved
    exact .inl ⟨p, entry, by rw [(answers p).mpr entry]⟩
  · refine .inr ⟨fun p entry => resolved ⟨p, entry⟩, ?_⟩
    -- The rule never passes a submission on, and the only target it names is the entry.
    cases result : DispatchRule.submitted context caller s i with
    | error fault j => rw [Inspecting.attempt_of_error result]
    | ok verdict j =>
        rw [Inspecting.attempt_of_ok result] at answers ⊢
        rcases DispatchRule.submitted_cases result with ⟨p, isTarget⟩ | ⟨message, isUnclear⟩
        · exact absurd ⟨p, (answers p).mp (congrArg _ isTarget)⟩ resolved
        · rw [isUnclear]
          rfl

theorem ruling_of_startsNot (submitsNot : signature ∉ i.program.config.submitSignatures)
    (startsNot : signature ∉ i.program.config.threadStartSignatures) {p : Procedure}
    (named : i.program.Names signature p) :
    ruling context g i caller site s DispatchRule.all =
      if (g.edgesOutOf site).isEmpty then .linked .fallback [p] else .passed := by
  have judged := DispatchRule.attempt_fallback reliable context g caller site invoked named
  have passes : DispatchRule.starts context.config s ≠ true :=
    mt (starts_iff configured invoked).mp startsNot
  unfold DispatchRule.all
  rw [ruling_of_submitsNot configured g caller site invoked submitsNot]
  simp only [ruling, DispatchRule.attempt_start, if_neg passes, judged]
  cases (g.edgesOutOf site).isEmpty with
  | true => rfl
  | false => rfl

/-- The rules link a call site to what it may run. -/
theorem exists_linked_iff {parts : Text × Text} (splits : Signature.split signature = .ok parts)
    (entries : ∀ p, p ∈ context.entries ↔ i.program.RunnableEntry p) (indexed : g.Indexed)
    (kind : EdgeKind) (target : Procedure) :
    (∃ rule targets, ruling context g i caller site s DispatchRule.all = .linked rule targets ∧
      rule.edgeKind = kind ∧ target ∈ targets) ↔
      i.program.Dispatches g caller site s kind target := by
  rw [Program.dispatches_iff invoked]
  by_cases submits : signature ∈ i.program.config.submitSignatures
  · rw [if_pos submits]
    rcases ruling_of_submits configured g caller site invoked reliable submits with
      ⟨p, entry, linked⟩ | ⟨unclear, ignored⟩
    · constructor
      · rintro ⟨rule, targets, isRuling, rfl, listed⟩
        cases linked.symm.trans isRuling
        rw [List.mem_singleton.mp listed]
        exact ⟨rfl, entry⟩
      · rintro ⟨rfl, isEntry⟩
        rw [isEntry.unique entry]
        exact ⟨.submit, [p], linked, rfl, List.mem_singleton_self p⟩
    · constructor
      · rintro ⟨rule, targets, isRuling, -⟩
        cases ignored.symm.trans isRuling
      · rintro ⟨-, isEntry⟩
        exact absurd isEntry (unclear target)
  · rw [if_neg submits]
    by_cases starts : signature ∈ i.program.config.threadStartSignatures
    · rw [if_pos starts, ruling_of_starts configured g caller site invoked submits starts]
      constructor
      · rintro ⟨rule, targets, isRuling, rfl, listed⟩
        cases isRuling
        obtain ⟨isEntry, other⟩ := List.mem_filter.mp listed
        exact ⟨rfl, (entries target).mp isEntry, by simpa using other⟩
      · rintro ⟨rfl, isEntry, other⟩
        refine ⟨.start, _, rfl, rfl, List.mem_filter.mpr ⟨(entries target).mpr isEntry, ?_⟩⟩
        simpa using other
    · obtain ⟨p, named⟩ := i.program.exists_names splits
      rw [if_neg starts, ← indexed.isEmpty_edgesOutOf,
        ruling_of_startsNot configured g caller site invoked reliable submits starts named]
      constructor
      · rintro ⟨rule, targets, isRuling, rfl, listed⟩
        split at isRuling
        · rename_i isBare
          cases isRuling
          rw [List.mem_singleton.mp listed]
          exact ⟨rfl, isBare, named⟩
        · cases isRuling
      · rintro ⟨rfl, isBare, isNamed⟩
        rw [if_pos isBare]
        have isTarget : p = target := Except.ok.inj (named.symm.trans isNamed)
        exact ⟨.fallback, [p], rfl, rfl, isTarget ▸ List.mem_singleton_self p⟩

theorem mem_siteEdges_iff {parts : Text × Text} (splits : Signature.split signature = .ok parts)
    (entries : ∀ p, p ∈ context.entries ↔ i.program.RunnableEntry p) (indexed : g.Indexed)
    (e : CallEdge) :
    e ∈ siteEdges context g i caller site s DispatchRule.all ↔
      ∃ kind target, i.program.Dispatches g caller site s kind target ∧
        (∀ f ∈ g.edges, f.site = site → f.target.signature ≠ target.signature) ∧
        e = { source := caller, site, index := s.index, target, kind } := by
  rw [mem_siteEdges]
  simp only [← indexed.hasEdge_eq_false,
    ← exists_linked_iff configured g caller site invoked reliable splits entries indexed]
  constructor
  · rintro ⟨rule, targets, isRuling, target, listed, isNew, rfl⟩
    exact ⟨rule.edgeKind, target, ⟨rule, targets, isRuling, rfl, listed⟩, isNew, rfl⟩
  · rintro ⟨kind, target, ⟨rule, targets, isRuling, rfl, listed⟩, isNew, rfl⟩
    exact ⟨rule, targets, isRuling, target, listed, isNew, rfl⟩

theorem ignored_iff {parts : Text × Text} (splits : Signature.split signature = .ok parts) :
    ruling context g i caller site s DispatchRule.all = .ignored ↔ i.program.UnclearSubmission s := by
  have submits_of_unclear (isUnclear : i.program.UnclearSubmission s) :
      signature ∈ i.program.config.submitSignatures ∧ ∀ p, ¬ i.program.TaskEntry s p := by
    obtain ⟨other, isInvoked, submits, unclear⟩ := isUnclear
    cases invoked.symm.trans isInvoked
    exact ⟨submits, unclear⟩
  by_cases submits : signature ∈ i.program.config.submitSignatures
  · rcases ruling_of_submits configured g caller site invoked reliable submits with
      ⟨p, entry, linked⟩ | ⟨unclear, ignored⟩
    · rw [linked]
      refine iff_of_false (fun isIgnored => by cases isIgnored) fun isUnclear => ?_
      exact (submits_of_unclear isUnclear).2 p entry
    · exact iff_of_true ignored ⟨signature, invoked, submits, unclear⟩
  · refine iff_of_false ?_ fun isUnclear => submits (submits_of_unclear isUnclear).1
    by_cases starts : signature ∈ i.program.config.threadStartSignatures
    · rw [ruling_of_starts configured g caller site invoked submits starts]
      exact fun isIgnored => by cases isIgnored
    · obtain ⟨p, named⟩ := i.program.exists_names splits
      rw [ruling_of_startsNot configured g caller site invoked reliable submits starts named]
      split <;> exact fun isIgnored => by cases isIgnored

end Site

section Procedure

variable {i : Inspection} {g : CallGraph} {p : Procedure} (sound : SoundBody p.body)

include sound

/-- A call site of a sound body invokes a signature. -/
theorem exists_invoked {site : Site} {s : Statement} (isCall : (site, s) ∈ callsOf i p) :
    ∃ signature parts, s.invokedMethod = some (.text signature) ∧
      Signature.split signature = .ok parts := by
  obtain ⟨body, -, hasBody, isPlaced, calls⟩ := body_of_calls isCall
  obtain ⟨method, invoked⟩ := Option.isSome_iff_exists.mp calls
  obtain ⟨signature, parts, rfl, splits⟩ := (sound.placed hasBody isPlaced).invoked invoked
  exact ⟨signature, parts, invoked, splits⟩

/-- Different call sites have issues at different places. -/
theorem nodup_visitPlaces (rules : List DispatchRule) (context : DispatchRule.Context) :
    (visitPlaces rules context g i p).Nodup := by
  unfold visitPlaces
  split
  · exact List.nodup_singleton _
  · have calls : (callsOf i p).Pairwise fun first second => first.1 ≠ second.1 := by
      unfold callsOf
      split
      · exact (List.pairwise_map.mp (p.nodup_sites _)).filter _
      · exact .nil
    refine List.nodup_flatMap.mpr ⟨fun call _ => ?_, calls.imp_of_mem ?_⟩
    · unfold sitePlaces
      split <;> simp
    · -- Places are told apart by the index of the statement, which is its position.
      rintro ⟨site, s⟩ ⟨other, t⟩ isCall isOther different place atSite atOther
      obtain ⟨-, rfl⟩ := (mem_sitePlaces ..).mp atSite
      obtain ⟨-, samePlace⟩ := (mem_sitePlaces ..).mp atOther
      obtain ⟨body, -, hasBody, isPlaced, -⟩ := body_of_calls isCall
      obtain ⟨body', -, hasBody', isPlaced', -⟩ := body_of_calls isOther
      have samePosition : Json.ofNat site.position = .ofNat other.position :=
        calc Json.ofNat site.position = s.index := (sound.placed hasBody isPlaced).index.symm
          _ = t.index := congrArg IssuePlace.statement samePlace
          _ = .ofNat other.position := (sound.placed hasBody' isPlaced').index
      obtain ⟨position, rfl⟩ := Procedure.site_of_placed isPlaced
      obtain ⟨position', rfl⟩ := Procedure.site_of_placed isPlaced'
      have : position = position' := by simpa [Json.ofNat, Procedure.site] using samePosition
      exact different (by rw [this])

variable (reliable : i.Reliable)

include reliable

omit sound in
theorem mem_callsOf {body : List Statement} (hasBody : p.body = some body)
    {call : Site × Statement} (isPlaced : call ∈ p.placed body) (isCall : call.2.isCall = true) :
    call ∈ callsOf i p := by
  simp [callsOf, reliable.body, hasBody, isPlaced, isCall]

theorem mem_visitEdges_iff (indexed : g.Indexed) (e : CallEdge) :
    e ∈ visitEdges DispatchRule.all (contextOf i.program.config (fresh i g)) g i p ↔
      i.program.Lacks g p e := by
  have entries := Dispatch.mem_runnableEntries reliable i.program.config
  constructor
  · intro isEdge
    obtain ⟨⟨site, s⟩, isCall, atSite⟩ := List.mem_flatMap.mp isEdge
    obtain ⟨signature, parts, invoked, splits⟩ := exists_invoked sound isCall
    obtain ⟨body, -, hasBody, isPlaced, -⟩ := body_of_calls isCall
    refine ⟨body, hasBody, site, s, isPlaced, ?_⟩
    exact (mem_siteEdges_iff rfl g p site invoked reliable splits entries indexed e).mp atSite
  · rintro ⟨body, hasBody, site, s, isPlaced, kind, target, dispatches, others⟩
    have isCall := mem_callsOf reliable hasBody isPlaced dispatches.isCall
    obtain ⟨signature, parts, invoked, splits⟩ := exists_invoked sound isCall
    refine List.mem_flatMap.mpr ⟨(site, s), isCall, ?_⟩
    exact (mem_siteEdges_iff rfl g p site invoked reliable splits entries indexed e).mpr
      ⟨kind, target, dispatches, others⟩

theorem mem_visitPlaces_iff (context : DispatchRule.Context)
    (configured : context.config = i.program.config) (place : IssuePlace) :
    place ∈ visitPlaces DispatchRule.all context g i p ↔ i.program.Unclear p place := by
  unfold visitPlaces
  rw [reliable.body]
  dsimp only
  constructor
  · intro isPlace
    obtain ⟨⟨site, s⟩, isCall, atSite⟩ := List.mem_flatMap.mp isPlace
    obtain ⟨ignored, isPlace⟩ := (mem_sitePlaces ..).mp atSite
    obtain ⟨signature, parts, invoked, splits⟩ := exists_invoked sound isCall
    obtain ⟨body, -, hasBody, isPlaced, -⟩ := body_of_calls isCall
    refine ⟨body, hasBody, site, s, isPlaced, ?_, ?_⟩
    · exact (ignored_iff configured g p site invoked reliable splits).mp ignored
    · rw [isPlace, Statement.unclassified, (sound.placed hasBody isPlaced).index]
  · rintro ⟨body, hasBody, site, s, isPlaced, unclear, isPlace⟩
    have isCall := mem_callsOf reliable hasBody isPlaced unclear.isCall
    obtain ⟨signature, parts, invoked, splits⟩ := exists_invoked sound isCall
    refine List.mem_flatMap.mpr ⟨(site, s), isCall, (mem_sitePlaces ..).mpr ⟨?_, ?_⟩⟩
    · exact (ignored_iff configured g p site invoked reliable splits).mpr unclear
    · rw [isPlace, Statement.unclassified, (sound.placed hasBody isPlaced).index]

end Procedure

theorem procedure_of_visitPlaces {rules : List DispatchRule} {context : DispatchRule.Context}
    {g : CallGraph} {i : Inspection} {p : Procedure} {place : IssuePlace}
    (isPlace : place ∈ visitPlaces rules context g i p) : place.procedure = some p.signature := by
  unfold visitPlaces at isPlace
  split at isPlace
  · rw [List.mem_singleton.mp isPlace]
    rfl
  · obtain ⟨call, -, atSite⟩ := List.mem_flatMap.mp isPlace
    rw [((mem_sitePlaces ..).mp atSite).2]
    rfl

theorem threadEntry_of_unanswered {i : Inspection} (reliable : i.Reliable) {c : ClassDecl}
    (unanswered : ∀ entry, ((Dispatch.entryOf c).attempt i).1 ≠ .ok entry) :
    ∃ fault, i.program.threadEntry c = .error fault := by
  rw [← Dispatch.attempt_entryOf reliable.noFailures]
  cases answer : ((Dispatch.entryOf c).attempt i).1 with
  | ok entry => exact absurd answer (unanswered entry)
  | error fault => exact ⟨fault, rfl⟩

theorem nodup_places {i : Inspection} {g : CallGraph}
    (sound : ∀ p ∈ i.program.applicationProcedures, SoundBody p.body)
    (distinct : (i.program.applicationProcedures.map (·.signature)).Nodup)
    (rules : List DispatchRule) (context : DispatchRule.Context) :
    (i.program.applicationProcedures.flatMap (visitPlaces rules context g i)).Nodup := by
  refine List.nodup_flatMap.mpr ⟨fun p listed => nodup_visitPlaces (sound p listed) _ _, ?_⟩
  refine (List.pairwise_map.mp distinct).imp fun {p q} different place isPlace isOther => ?_
  have same : some p.signature = some q.signature :=
    (procedure_of_visitPlaces isPlace).symm.trans (procedure_of_visitPlaces isOther)
  exact different (Option.some.inj same)

/-- If no question fails, augmenting the call graph of a program that was read from a document adds
    exactly the edges that its application procedures lack, each of them once. Every call names a
    procedure, so a call that is left to the fallback has an edge afterwards. Besides classes that cannot
    be classified, exactly one issue is recorded for each unclear submission. -/
theorem augment_adds_exactly_lacking_edges {config : Config} {document : Json} {log log' : Log}
    {start i : Inspection} {g : CallGraph}
    (loaded : Description.program config document log = .ok start.program log')
    (distinct : ((start.program.classes.values.flatMap (·.methods)).map (·.signature)).Nodup)
    (noFailures : start.failures = []) (isGraph : CallGraph.build start = .ok g i) :
    ∃ added unclassified unclear after,
      Session.step (.augment true none none) { inspection := i, graph := g } =
        (.ok (.edges added), after) ∧
      after.graph.edges = g.edges ++ added ∧
      (∀ e, e ∈ added ↔
        ∃ p ∈ start.program.applicationProcedures, start.program.Lacks g p e) ∧
      (added.Pairwise fun e f => e.site = f.site → e.target.signature ≠ f.target.signature) ∧
      (∀ p ∈ start.program.applicationProcedures, ∀ body, p.body = some body →
        ∀ site s, (site, s) ∈ p.placed body → s.isCall = true →
        ∃ signature target, s.invokedMethod = some (.text signature) ∧
          start.program.Names signature target ∧ target.signature = signature) ∧
      after.inspection.issues = i.issues ++ unclassified ++ unclear ∧
      (∀ issue ∈ unclassified, ∃ c ∈ start.program.applicationClasses, c.isInterface = false ∧
        (∃ fault, start.program.threadEntry c = .error fault) ∧
        ∃ fault, issue = c.unclassified fault) ∧
      (unclear.map Issue.place).Nodup ∧
      ∀ place, place ∈ unclear.map Issue.place ↔
        ∃ p ∈ start.program.applicationProcedures, start.program.Unclear p place := by
  have coherentStart := (Description.built_program loaded distinct).coherent
  obtain ⟨grown, namedStart⟩ := CallGraph.grown_of_build coherentStart isGraph
  have alike := CallGraph.alike_of_build isGraph
  have coherent := grown.later.program.coherent coherentStart
  have named := grown.later.program.named namedStart
  have reliable : i.Reliable := ⟨alike.failures.trans noFailures, coherent, named⟩
  have sound : ∀ p ∈ i.program.applicationProcedures, SoundBody p.body := fun p listed =>
    Description.soundBody_of_program loaded (alike.program.applicationProcedures ▸ listed)
  have signatures : (i.program.applicationProcedures.map (·.signature)).Nodup := by
    rw [alike.program.applicationProcedures]
    exact Program.nodup_applicationProcedures distinct
  obtain ⟨after, stepped, isGraphAfter, isInspectionAfter⟩ := Session.step_augment named g
  obtain ⟨unclassified, recorded, issues, only, -, -, places⟩ :=
    issues_run DispatchRule.all i.program.config coherent named grown.fits
  have perm := places reliable.noFailures signatures
  have edges := edges_run DispatchRule.all i.program.config coherent named grown.fits
  rw [← alike.program.applicationProcedures]
  refine ⟨_, unclassified, recorded, after, stepped, isGraphAfter ▸ edges, fun e => ?_,
    pairwise_added_run _ _ coherent named grown.fits, ?_, isInspectionAfter ▸ issues, ?_,
    perm.nodup_iff.mpr (nodup_places sound signatures _ _), fun place => ?_⟩
  · refine (mem_added_run DispatchRule.all i.program.config coherent named grown.fits e).trans ?_
    refine exists_congr fun p => and_congr_right fun listed => ?_
    rw [mem_visitEdges_iff (sound p listed) reliable grown.fits.indexed, alike.program.lacks]
  · intro p listed body hasBody site s isPlaced isCall
    obtain ⟨signature, parts, invoked, splits⟩ :=
      exists_invoked (sound p listed) (mem_callsOf reliable hasBody isPlaced isCall)
    obtain ⟨target, isTarget⟩ := start.program.exists_names splits
    exact ⟨signature, target, invoked, isTarget, isTarget.signature coherentStart⟩
  · intro issue listed
    obtain ⟨c, isClass, isConcrete, unanswered, about⟩ := only issue listed
    rw [alike.program.applicationClasses] at isClass
    obtain ⟨fault, untold⟩ := threadEntry_of_unanswered reliable unanswered
    rw [alike.program.threadEntry] at untold
    exact ⟨c, isClass, isConcrete, ⟨fault, untold⟩, about⟩
  · rw [perm.mem_iff, List.mem_flatMap]
    refine exists_congr fun p => and_congr_right fun listed => ?_
    rw [mem_visitPlaces_iff (sound p listed) reliable _ rfl, alike.program.unclear]

/-- Starts a thread, submits a known and an unknown task, and makes a call without a target. -/
def sampleDocument : Json :=
  let submit : Json := .text ("<java.util.concurrent.ExecutorService: "
    ++ "java.util.concurrent.Future submit(java.lang.Runnable)>")
  .obj [("classes", .arr [
    .obj [
      ("name", .text "app.Task"),
      ("interfaces", .arr [.text "java.lang.Runnable"]),
      ("methods", .arr [
        .obj [("subsignature", .text "void run()"), ("statements", .arr [])]])],
    .obj [
      ("name", .text "app.Main"),
      ("methods", .arr [
        .obj [("subsignature", .text "void main()"), ("statements", .arr [
          .obj [("invoke", .text "<java.lang.Thread: void start()>"), ("targets", .arr [])],
          .obj [("invoke", submit), ("args", .arr [.text "app.Task"]), ("targets", .arr [])],
          .obj [("invoke", submit), ("args", .arr [.text "app.Unknown"]), ("targets", .arr [])],
          .obj [("invoke", .text "<app.Task: void run()>"), ("targets", .arr [])]])]])]])]

theorem augment_adds_exactly_lacking_edges_of_sample :
    ∃ (program : Program) (log : Log) (i : Inspection) (added : List CallEdge)
      (unclassified unclear : List Issue) (after : Session),
      Description.program {} sampleDocument #[] = .ok program log ∧
      ((program.classes.values.flatMap (·.methods)).map (·.signature)).Nodup ∧
      CallGraph.build { program } = .ok {} i ∧
      Session.step (.augment true none none) { inspection := i } = (.ok (.edges added), after) ∧
      added.map (fun e => (e.site.position, e.kind)) =
        [(0, .threadStart), (1, .executorSubmit), (3, .staticFallback)] ∧
      (∀ e, e ∈ added ↔ ∃ p ∈ program.applicationProcedures, program.Lacks {} p e) ∧
      after.inspection.issues = i.issues ++ unclassified ++ unclear ∧
      ∀ place, place ∈ unclear.map Issue.place ↔
        ∃ p ∈ program.applicationProcedures, program.Unclear p place := by
  obtain ⟨program, log, loaded, distinct, i, isGraph, added, after, stepped, kinds⟩ :
      ∃ program log, Description.program {} sampleDocument #[] = .ok program log ∧
        ((program.classes.values.flatMap (·.methods)).map (·.signature)).Nodup ∧
        ∃ i, CallGraph.build { program } = .ok {} i ∧
          ∃ added after, Session.step (.augment true none none) { inspection := i } =
              (.ok (.edges added), after) ∧
            added.map (fun e => (e.site.position, e.kind)) =
              [(0, .threadStart), (1, .executorSubmit), (3, .staticFallback)] :=
    ⟨_, _, by cbv, by decide, _, by cbv, _, _, by cbv, by cbv⟩
  obtain ⟨added', unclassified, unclear, after', isStep, -, edges, -, -, issues, -, -, places⟩ :=
    augment_adds_exactly_lacking_edges loaded distinct rfl isGraph
  cases stepped.symm.trans isStep
  exact ⟨program, log, i, added, unclassified, unclear, after, loaded, distinct, isGraph, stepped,
    kinds, edges, issues, places⟩

end Augmentation

end CallWeight
