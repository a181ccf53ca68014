import CallWeight.Proofs.BatchRuns
import CallWeight.Proofs.CostBounds
import CallWeight.Proofs.DispatchTargets

/-! # The edges that a program declares

Building a call graph adds one edge after the other, procedure by procedure and statement by statement.
The targets are looked up on the way, which may add phantoms to the program but changes no answer. So
the graph is the one of a list that can be read off the program beforehand: `Program.declaredEdges`. In
that list a call site and a target determine the edge, so nothing is lost when edges are added twice.
-/

namespace CallWeight

namespace Program

/-- The procedure that a value names as the target of a call, if it names one. -/
def target? (program : Program) : Json → Option Procedure
  | .text signature => ((program.procedure signature).map Prod.fst).toOption
  | _ => none

/-- The edges that a statement declares. -/
def declaredEdgesAt (program : Program) (p : Procedure) (placed : Site × Statement) :
    List CallEdge :=
  placed.2.declaredTargets.filterMap fun name => (program.target? name).map fun target =>
    { source := p
      site := placed.1
      index := placed.2.index
      target
      kind := if placed.2.declaredTargets.length = 1 then .direct else .virtual }

def declaredEdgesOf (program : Program) (p : Procedure) : List CallEdge :=
  (p.placed p.statements).flatMap (program.declaredEdgesAt p)

def declaredEdges (program : Program) : List CallEdge :=
  program.applicationProcedures.flatMap program.declaredEdgesOf

theorem target?_eq_some {program : Program} {name : Json} {p : Procedure} :
    program.target? name = some p ↔ ∃ signature, name = .text signature ∧
      program.Names signature p := by
  unfold target? Names
  split
  · rename_i signature
    simp only [Json.text, Json.atom.injEq, Atom.text.injEq, exists_eq_left']
    generalize (program.procedure signature).map Prod.fst = answer
    cases answer with
    | ok q => simp [Except.toOption]
    | error fault => simp [Except.toOption]
  · rename_i noText
    constructor
    · exact fun found => by cases found
    · rintro ⟨signature, rfl, -⟩
      exact absurd rfl (noText signature)

theorem resolves_iff {program : Program} {name : Json} :
    program.resolves name = true ↔ (program.target? name).isSome := by
  unfold resolves target?
  split
  · rename_i signature
    simp only [map_fst_procedure, OrderedMap.contains]
    cases program.procedures.get? signature with
    | some p => simp [Except.toOption]
    | none =>
        simp only [Option.isSome_none, Bool.false_or, Procedure.phantom]
        cases Signature.split signature with
        | ok parts =>
            simp [Except.isOk, Except.toBool, Except.toOption, bind, Except.bind, pure, Except.pure]
        | error fault => simp [Except.isOk, Except.toBool, Except.toOption, bind, Except.bind]
  · simp

end Program

theorem Procedure.exists_placed (p : Procedure) {body : List Statement} {s : Statement}
    (listed : s ∈ body) : ∃ position, (p.site position, s) ∈ p.placed body := by
  obtain ⟨position, atPosition⟩ := List.getElem?_of_mem listed
  refine ⟨position, List.mem_map.mpr ⟨(s, position), ?_, rfl⟩⟩
  exact List.mem_zipIdx_iff_getElem?.mpr atPosition

/-- A site holds one statement. -/
theorem Procedure.placed_eq {p : Procedure} {body : List Statement} {site : Site} {s t : Statement}
    (sPlaced : (site, s) ∈ p.placed body) (tPlaced : (site, t) ∈ p.placed body) : s = t := by
  obtain ⟨⟨s', m⟩, sListed, sLocated⟩ := List.mem_map.mp sPlaced
  obtain ⟨⟨t', n⟩, tListed, tLocated⟩ := List.mem_map.mp tPlaced
  obtain ⟨rfl, rfl⟩ := Prod.mk.inj sLocated
  obtain ⟨sameSite, rfl⟩ := Prod.mk.inj tLocated
  obtain rfl : n = m := congrArg Site.position sameSite
  have atPosition := List.mem_zipIdx_iff_getElem?.mp sListed
  exact Option.some.inj (atPosition.symm.trans (List.mem_zipIdx_iff_getElem?.mp tListed))

/-! ## Building edge by edge -/

namespace CallGraph

open Inspecting

theorem target?_of_procedure {start i j : Inspection} (alike : start.Alike i) {name : Json}
    {p : Procedure} (found : Inspecting.procedure name i = .ok p j) :
    start.program.target? name = some p := by
  rw [procedure_eq] at found
  obtain ⟨key, i₁, keyed, others⟩ := ok_of_bind found
  obtain ⟨rfl, -⟩ := ok_of_ofExcept keyed
  obtain ⟨done, i₂, asked, looked⟩ := ok_of_bind others
  obtain ⟨rfl, -⟩ := ok_of_ask asked
  obtain ⟨again, i₃, keyedAgain, named⟩ := ok_of_bind looked
  obtain ⟨rfl, -⟩ := ok_of_ofExcept keyedAgain
  obtain ⟨signature, i₄, used, declares⟩ := ok_of_bind named
  obtain ⟨rfl, isText⟩ := ok_of_ofExcept used
  have isName := Json.eq_text_of_asText isText
  refine Program.target?_eq_some.mpr ⟨signature, isName, (alike.program.names _ p).mp ?_⟩
  have answer := attempt_of_ok declares
  rw [attempt_declared] at answer
  unfold Program.Names
  cases looked : i₄.program.procedure signature with
  | error fault =>
      rw [looked] at answer
      cases answer
  | ok result =>
      rw [looked] at answer
      obtain ⟨q, program⟩ := result
      obtain rfl : q = p := by simpa using congrArg Prod.fst answer
      rfl

theorem addTargets_adds {start i j : Inspection} (alike : start.Alike i) {p : Procedure}
    {site : Site} {s : Statement} {kind : EdgeKind} {g g' : CallGraph} {names : List Json}
    (returned : addTargets p site s kind g names i = .ok g' j) :
    g' = (names.filterMap fun name => (start.program.target? name).map fun target =>
        { source := p, site, index := s.index, target, kind : CallEdge }).foldl addEdge g ∧
      ∀ name ∈ names, (start.program.target? name).isSome := by
  induction names generalizing g i with
  | nil =>
      cases returned
      exact ⟨rfl, by simp⟩
  | cons name rest ih =>
      obtain ⟨target, middle, found, others⟩ := ok_of_bind returned
      have isTarget := target?_of_procedure alike found
      have alikeMiddle : i.Alike middle := by
        have quiet := ((steady_procedure name).quiet i).1
        rwa [attempt_of_ok found] at quiet
      obtain ⟨isGraph, resolved⟩ := ih (alike.trans alikeMiddle) others
      refine ⟨?_, ?_⟩
      · simpa [List.filterMap_cons, isTarget] using isGraph
      · simpa [isTarget] using resolved

/-- A loop whose rounds add edges adds the edges of all rounds. -/
theorem foldlM_adds {α : Type} {start : Inspection} {f : CallGraph → α → Inspecting CallGraph}
    {E : α → List CallEdge} {Q : α → Prop} {items : List α} (neutral : ∀ g a, (f g a).Neutral)
    (round : ∀ a ∈ items, ∀ {g g' i j}, start.Alike i → f g a i = .ok g' j →
      g' = (E a).foldl addEdge g ∧ Q a)
    {g g' : CallGraph} {i j : Inspection} (alike : start.Alike i)
    (returned : items.foldlM f g i = .ok g' j) :
    g' = (items.flatMap E).foldl addEdge g ∧ ∀ a ∈ items, Q a := by
  induction items generalizing g i with
  | nil =>
      cases returned
      exact ⟨rfl, by simp⟩
  | cons a rest ih =>
      obtain ⟨next, middle, first, others⟩ := ok_of_bind returned
      have alikeMiddle := neutral g a i
      rw [attempt_of_ok first] at alikeMiddle
      obtain ⟨rfl, holds⟩ := round a List.mem_cons_self alike first
      obtain ⟨isGraph, rest⟩ := ih (fun b inRest => round b (List.mem_cons_of_mem _ inRest))
        (alike.trans alikeMiddle) others
      refine ⟨?_, List.forall_mem_cons.mpr ⟨holds, rest⟩⟩
      rw [isGraph, List.flatMap_cons, List.foldl_append]

theorem addProcedure_adds {start i j : Inspection} (alike : start.Alike i) {p : Procedure}
    {g g' : CallGraph}
    (returned : addProcedure g p i = .ok g' j) :
    g' = (start.program.declaredEdgesOf p).foldl addEdge g ∧
      ∀ s ∈ p.statements, ∀ name ∈ s.declaredTargets, (start.program.target? name).isSome := by
  obtain ⟨body, i₁, asked, others⟩ := ok_of_bind returned
  obtain ⟨rfl, answered⟩ := ok_of_ask asked
  have isBody : body = p.body := by
    unfold Inspection.body at answered
    exact (Except.ok.inj (Inspection.answer_eq_ok.mp answered).2).symm
  subst isBody
  cases hasBody : p.body with
  | none =>
      rw [hasBody] at others
      cases others
      simp [Program.declaredEdgesOf, Procedure.statements, hasBody, Procedure.placed]
  | some body =>
      rw [hasBody] at others
      have statements : p.statements = body := by simp [Procedure.statements, hasBody]
      obtain ⟨isGraph, resolved⟩ := foldlM_adds (E := start.program.declaredEdgesAt p)
        (Q := fun placed => ∀ name ∈ placed.2.declaredTargets, (start.program.target? name).isSome)
        (fun g placed => (quiet_addTargets p _ _ _ g _).neutral)
        (fun placed _ _ _ _ _ alike added => addTargets_adds alike added) alike others
      rw [Program.declaredEdgesOf, statements]
      refine ⟨isGraph, fun s listed => ?_⟩
      obtain ⟨position, isPlaced⟩ := p.exists_placed listed
      exact resolved _ isPlaced

/-- The graph of a program is that of the edges that it declares. It is only built if all declared
    targets name procedures. -/
theorem build_adds {start i : Inspection} {g : CallGraph} (returned : build start = .ok g i) :
    g = ofEdges start.program.declaredEdges ∧
      ∀ p ∈ start.program.applicationProcedures, ∀ s ∈ p.statements, ∀ name ∈ s.declaredTargets,
        (start.program.target? name).isSome := by
  obtain ⟨done, i₁, required, others⟩ := ok_of_bind returned
  obtain ⟨rfl, -⟩ := ok_of_ask required
  obtain ⟨seen, i₂, started, others⟩ := ok_of_bind others
  cases started
  obtain ⟨built, i₃, adds, others⟩ := ok_of_bind others
  obtain ⟨done, i₄, logged, others⟩ := ok_of_bind others
  cases others
  exact foldlM_adds (fun g p => (quiet_addProcedure g p).neutral)
    (fun p _ _ _ _ _ alike added => addProcedure_adds alike added) (.refl _) adds

/-! ## Adding a list of edges -/

theorem mem_of_mem_foldl_addEdge {edges : List CallEdge} {g : CallGraph} {e : CallEdge}
    (isEdge : e ∈ (edges.foldl addEdge g).edges) : e ∈ g.edges ∨ e ∈ edges := by
  induction edges generalizing g with
  | nil => exact .inl isEdge
  | cons f rest ih =>
      rcases ih isEdge with early | inRest
      · unfold addEdge at early
        split at early
        · exact .inl early
        · rcases List.mem_append.mp early with old | isNew
          · exact .inl old
          · exact .inr (List.mem_singleton.mp isNew ▸ List.mem_cons_self)
      · exact .inr (List.mem_cons_of_mem _ inRest)

theorem edges_subset_addEdge (g : CallGraph) (e : CallEdge) : g.edges ⊆ (g.addEdge e).edges := by
  unfold addEdge
  split
  · exact List.Subset.refl _
  · exact List.subset_append_left _ _

theorem edges_subset_foldl_addEdge (edges : List CallEdge) (g : CallGraph) :
    g.edges ⊆ (edges.foldl addEdge g).edges := by
  induction edges generalizing g with
  | nil => exact List.Subset.refl _
  | cons e rest ih => exact List.Subset.trans (g.edges_subset_addEdge e) (ih _)

/-- Every edge is added, or the graph had one from the same call site to the same target. -/
theorem exists_mem_foldl_addEdge {edges : List CallEdge} {g : CallGraph} (indexed : g.Indexed)
    {e : CallEdge} (listed : e ∈ edges) :
    ∃ f ∈ (edges.foldl addEdge g).edges, f.site = e.site ∧
      f.target.signature = e.target.signature := by
  induction edges generalizing g with
  | nil => cases listed
  | cons first rest ih =>
      rcases List.mem_cons.mp listed with rfl | inRest
      · suffices added : ∃ f ∈ (g.addEdge e).edges, f.site = e.site ∧
            f.target.signature = e.target.signature by
          obtain ⟨f, isEdge, same⟩ := added
          exact ⟨f, edges_subset_foldl_addEdge rest _ isEdge, same⟩
        unfold addEdge
        split
        · rename_i has
          obtain ⟨f, leaves, arrives⟩ := List.any_eq_true.mp has
          obtain ⟨isEdge, sameSite⟩ := indexed.mem_edgesOutOf.mp leaves
          exact ⟨f, isEdge, sameSite, of_decide_eq_true arrives⟩
        · exact ⟨e, List.mem_append_right _ (List.mem_singleton_self e), rfl, rfl⟩
      · exact ih (indexed.addEdge first) inRest

theorem mem_edges_ofEdges {edges : List CallEdge}
    (determined : ∀ e ∈ edges, ∀ f ∈ edges, e.site = f.site →
      e.target.signature = f.target.signature → e = f) (e : CallEdge) :
    e ∈ (ofEdges edges).edges ↔ e ∈ edges := by
  have only {f : CallEdge} (isEdge : f ∈ (ofEdges edges).edges) : f ∈ edges :=
    (mem_of_mem_foldl_addEdge isEdge).resolve_left List.not_mem_nil
  refine ⟨only, fun listed => ?_⟩
  obtain ⟨f, isEdge, sameSite, sameTarget⟩ := exists_mem_foldl_addEdge .empty listed
  rwa [determined e listed f (only isEdge) sameSite.symm sameTarget.symm]

end CallGraph

/-! ## Call sites and targets determine declared edges -/

namespace Program

variable {program : Program}

theorem mem_declaredEdges {e : CallEdge} :
    e ∈ program.declaredEdges ↔ ∃ p ∈ program.applicationProcedures,
      ∃ site s, (site, s) ∈ p.placed p.statements ∧
      ∃ name ∈ s.declaredTargets, ∃ target, program.target? name = some target ∧
        e = { source := p, site, index := s.index, target,
              kind := if s.declaredTargets.length = 1 then .direct else .virtual } := by
  simp only [declaredEdges, declaredEdgesOf, declaredEdgesAt, List.mem_flatMap, List.mem_filterMap,
    Option.map_eq_some_iff, Prod.exists, eq_comm (a := e)]

theorem Coherent.declaredEdge_eq (coherent : program.Coherent) (named : program.Named)
    {e f : CallEdge} (isE : e ∈ program.declaredEdges) (isF : f ∈ program.declaredEdges)
    (sameSite : e.site = f.site) (sameTarget : e.target.signature = f.target.signature) : e = f := by
  obtain ⟨p, pListed, site, s, sPlaced, name, -, target, isTarget, rfl⟩ := mem_declaredEdges.mp isE
  obtain ⟨q, qListed, site', t, tPlaced, name', -, target', isTarget', rfl⟩ :=
    mem_declaredEdges.mp isF
  obtain rfl : site = site' := sameSite
  have sameProcedure : p = q := by
    obtain ⟨m, atM⟩ := Procedure.site_of_placed sPlaced
    obtain ⟨n, atN⟩ := Procedure.site_of_placed tPlaced
    exact (coherent.knows_of_application named pListed).1.eq
      (coherent.knows_of_application named qListed).1
      (Procedure.signature_eq_of_site (atM.symm.trans atN))
  subst sameProcedure
  have sameStatement : s = t := Procedure.placed_eq sPlaced tPlaced
  obtain ⟨signature, -, names⟩ := target?_eq_some.mp isTarget
  obtain ⟨signature', -, names'⟩ := target?_eq_some.mp isTarget'
  have sameSignature : signature = signature' :=
    calc signature = target.signature := (names.signature coherent).symm
      _ = target'.signature := sameTarget
      _ = signature' := names'.signature coherent
  subst sameStatement sameSignature
  rw [Except.ok.inj (names.symm.trans names')]

end Program

/-- The edges of a built graph are those that the program declares. -/
theorem CallGraph.mem_edges_of_build {start i : Inspection} {g : CallGraph}
    (coherent : start.program.Coherent) (returned : build start = .ok g i) (e : CallEdge) :
    e ∈ g.edges ↔ e ∈ start.program.declaredEdges := by
  obtain ⟨-, named⟩ := grown_of_build coherent returned
  rw [(build_adds returned).1]
  exact mem_edges_ofEdges (fun e isE f isF => coherent.declaredEdge_eq named isE isF) e

/-! ## What a returned analysis says about its program -/

theorem Analysis.entry_of_warned {config : Config} {warnings : List String}
    (judged : config.warnings = .ok warnings) :
    ∃ subsignature, config.entrySubsignature = .text subsignature := by
  obtain ⟨entry, isText, -⟩ := ok_of_exceptBind judged
  exact ⟨entry, Json.eq_text_of_asText isText⟩

/-- An analysis returns only if the program is readable. -/
theorem Analysis.readable_of_returned {i after : Inspection} {a : Analysis}
    (coherent : i.program.Coherent) (returned : ofProgram i = .ok a after) :
    i.program.Readable := by
  obtain ⟨g, i₁, built, others⟩ := ok_of_bind returned
  obtain ⟨grown, named⟩ := CallGraph.grown_of_build coherent built
  obtain ⟨seen, i₂, started, others⟩ := ok_of_bind others
  cases started
  obtain ⟨done, i₂, warned, -⟩ := ok_of_bind others
  obtain ⟨warnings, i₃, judged, -⟩ := ok_of_bind warned
  refine ⟨named, fun p listed s isStatement name isTarget => ?_, ?_⟩
  · exact Program.resolves_iff.mpr
      ((CallGraph.build_adds built).2 p listed s isStatement name isTarget)
  · rw [← grown.later.program.config]
    exact entry_of_warned (ok_of_ofExcept judged).2

end CallWeight
