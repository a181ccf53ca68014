import CallWeight.Proofs.AssembledPrograms
import CallWeight.Proofs.AugmentationWalk
import CallWeight.Proofs.DeclaredEdges
import CallWeight.Proofs.LoopNests

/-! # The edges of a described program, in order

The call graph of a program that was read from a document has one edge per statement and distinct
declared target, in the order of the program. Two things are decided by what the statement declares and
not by what the graph makes of it. A statement gets edges even if it calls nothing, as long as it
declares targets; and an edge is direct if its target was declared once, so that a target that is
declared twice makes the only edge of its site virtual. `CallGraph.build_of_description` says exactly
which programs are thereby given other edges than one per call and target.
-/

namespace CallWeight

/-! ## Sketches of edges -/

/-- What an edge says, with procedures given by their signatures. -/
structure CallSketch where
  caller : Text
  site : Site
  target : Text
  kind : EdgeKind
  deriving DecidableEq

def CallEdge.sketch (e : CallEdge) : CallSketch where
  caller := e.source.signature
  site := e.site
  target := e.target.signature
  kind := e.kind

/-- The sketch of an edge from a statement of a procedure. -/
def Procedure.callTo (p : Procedure) (site : Site) (kind : EdgeKind) (target : Text) :
    CallSketch where
  caller := p.signature
  site
  target
  kind

theorem Procedure.callTo_injective (p : Procedure) (site : Site) (kind : EdgeKind) :
    Function.Injective (p.callTo site kind) := fun _ _ same => congrArg CallSketch.target same

/-- If call site and target tell edges apart, then adding a list of edges keeps the first of each. -/
theorem CallGraph.map_sketch_ofEdges {edges : List CallEdge}
    (determined : ∀ e ∈ edges, ∀ f ∈ edges, e.site = f.site →
      e.target.signature = f.target.signature → e.sketch = f.sketch) :
    (ofEdges edges).edges.map (·.sketch) = (edges.map (·.sketch)).eraseDups := by
  induction edges using List.reverseRecOn with
  | nil => rfl
  | append_singleton edges e ih =>
      have ih := ih fun f isF g isG =>
        determined f (List.mem_append_left _ isF) g (List.mem_append_left _ isG)
      have had : (ofEdges edges).hasEdge e.site e.target.signature = true ↔
          e.sketch ∈ edges.map (·.sketch) := by
        rw [← List.mem_eraseDups, ← ih]
        simp only [hasEdge, List.any_eq_true, decide_eq_true_eq,
          (indexed_ofEdges edges).mem_edgesOutOf, List.mem_map]
        constructor
        · rintro ⟨f, ⟨isEdge, sameSite⟩, sameTarget⟩
          have listed : f ∈ edges :=
            (mem_of_mem_foldl_addEdge isEdge).resolve_left List.not_mem_nil
          exact ⟨f, isEdge, determined f (List.mem_append_left _ listed) e (by simp) sameSite
            sameTarget⟩
        · rintro ⟨f, isEdge, same⟩
          exact ⟨f, ⟨isEdge, congrArg CallSketch.site same⟩, congrArg CallSketch.target same⟩
      have added : ofEdges (edges ++ [e]) = (ofEdges edges).addEdge e := by simp [ofEdges]
      rw [added, addEdge, List.map_append, List.map_singleton, eraseDups_concat]
      split
      case isTrue has => rw [if_pos (had.mp has), ih]
      case isFalse isNew =>
        rw [if_neg fun listed => isNew (had.mpr listed), insertEdge, List.map_append,
          List.map_singleton, ih]

/-! ## What statements declare -/

/-- A value that is a text. -/
def Json.text? : Json → Option Text
  | .text value => some value
  | _ => none

namespace Statement

/-- The signatures among the declared targets. -/
def targetSignatures (s : Statement) : List Text := s.declaredTargets.filterMap Json.text?

/-- The kind of the edges of a statement, told by how many targets it declares. -/
def declaredKind (s : Statement) : EdgeKind :=
  if s.declaredTargets.length = 1 then .direct else .virtual

/-- The kind of the edges of a statement, told by how many targets it has. -/
def distinctKind (s : Statement) : EdgeKind :=
  if s.targetSignatures.eraseDups.length = 1 then .direct else .virtual

/-- Whether all declared targets are well-formed signatures. -/
def WellFormed (s : Statement) : Prop :=
  ∀ name ∈ s.declaredTargets, (Signature.splitValue name).isOk = true

theorem WellFormed.splits {s : Statement} (wellFormed : s.WellFormed) {name : Json}
    (isTarget : name ∈ s.declaredTargets) :
    ∃ signature parts, name = .text signature ∧ Signature.split signature = .ok parts := by
  have splits := wellFormed name isTarget
  cases split : Signature.splitValue name with
  | error fault => simp [split, Except.isOk, Except.toBool] at splits
  | ok parts =>
      obtain ⟨signature, isText, isSplit⟩ := Description.text_of_splitValue split
      exact ⟨signature, parts, isText, isSplit⟩

end Statement

theorem Procedure.mem_of_placed {p : Procedure} {body : List Statement} {placed : Site × Statement}
    (isPlaced : placed ∈ p.placed body) : placed.2 ∈ body := by
  obtain ⟨⟨s, position⟩, listed, rfl⟩ := List.mem_map.mp isPlaced
  exact List.fst_mem_of_mem_zipIdx listed

namespace Program

variable {program : Program}

/-- Sketches of the edges of a program: one for each application procedure, each statement of it that is
    admitted and each distinct target of the statement, of the kind that the statement gives. -/
def sketches (program : Program) (admits : Statement → Bool) (kind : Statement → EdgeKind) :
    List CallSketch :=
  program.applicationProcedures.flatMap fun p =>
    ((p.placed p.statements).filter (admits ·.2)).flatMap fun placed =>
      placed.2.targetSignatures.eraseDups.map (p.callTo placed.1 (kind placed.2))

theorem mem_sketches {admits : Statement → Bool} {kind : Statement → EdgeKind} {o : CallSketch} :
    o ∈ program.sketches admits kind ↔ ∃ p ∈ program.applicationProcedures,
      ∃ site s, (site, s) ∈ p.placed p.statements ∧ admits s = true ∧
        ∃ target ∈ s.targetSignatures, p.callTo site (kind s) target = o := by
  simp only [sketches, List.mem_flatMap, List.mem_filter, List.mem_map, Prod.exists, and_assoc,
    List.mem_eraseDups]

theorem sketch_declaredEdgesAt (tidy : program.Tidy) (p : Procedure) {placed : Site × Statement}
    (wellFormed : placed.2.WellFormed) :
    (program.declaredEdgesAt p placed).map (·.sketch) =
      placed.2.targetSignatures.map (p.callTo placed.1 placed.2.declaredKind) := by
  rw [declaredEdgesAt, Statement.targetSignatures, List.map_filterMap, List.map_filterMap]
  refine List.filterMap_congr fun name isTarget => ?_
  obtain ⟨signature, parts, rfl, splits⟩ := wellFormed.splits isTarget
  obtain ⟨target, names⟩ := program.exists_names splits
  have isTarget : program.target? (.text signature) = some target :=
    target?_eq_some.mpr ⟨signature, rfl, names⟩
  rw [isTarget]
  simp only [Option.map_some, CallEdge.sketch, names.signature_of_filed tidy.filed, Json.text?]
  rfl

section Places

variable (places : (program.applicationProcedures.map Procedure.place).Nodup)

include places

/-- Among application code, a call site determines the statement. -/
theorem eq_of_site {p q : Procedure} (isP : p ∈ program.applicationProcedures)
    (isQ : q ∈ program.applicationProcedures) {site : Site} {s t : Statement}
    (sPlaced : (site, s) ∈ p.placed p.statements) (tPlaced : (site, t) ∈ q.placed q.statements) :
    p = q ∧ s = t := by
  obtain ⟨m, atM⟩ := Procedure.site_of_placed sPlaced
  obtain ⟨n, atN⟩ := Procedure.site_of_placed tPlaced
  have same := atM.symm.trans atN
  simp only [Procedure.site, Site.mk.injEq] at same
  obtain rfl : p = q :=
    List.inj_on_of_nodup_map places isP isQ (Prod.ext same.2.1 same.2.2)
  exact ⟨rfl, Procedure.placed_eq sPlaced tPlaced⟩

/-- Leaving out statements and choosing kinds changes nothing only if no statement with targets is left
    out and all have the same kinds as before. -/
theorem sketches_eq_iff {admits : Statement → Bool} {kind kind' : Statement → EdgeKind} :
    program.sketches (fun _ => true) kind = program.sketches admits kind' ↔
      ∀ p ∈ program.applicationProcedures, ∀ s ∈ p.statements, s.targetSignatures ≠ [] →
        admits s = true ∧ kind s = kind' s := by
  constructor
  · intro same p listed s isStatement hasTargets
    obtain ⟨position, isPlaced⟩ := p.exists_placed isStatement
    obtain ⟨target, isTarget⟩ := List.exists_mem_of_ne_nil _ hasTargets
    have isThere : p.callTo (p.site position) (kind s) target ∈ program.sketches admits kind' :=
      same ▸ mem_sketches.mpr ⟨p, listed, _, s, isPlaced, rfl, target, isTarget, rfl⟩
    obtain ⟨q, qListed, site, t, tPlaced, admitted, other, -, sameCall⟩ := mem_sketches.mp isThere
    obtain rfl : site = p.site position := congrArg CallSketch.site sameCall
    obtain ⟨rfl, rfl⟩ := eq_of_site places qListed listed tPlaced isPlaced
    exact ⟨admitted, (congrArg CallSketch.kind sameCall).symm⟩
  · intro agree
    refine List.flatMap_congr fun p listed => ?_
    rw [flatMap_filter, flatMap_filter]
    refine List.flatMap_congr fun placed isPlaced => ?_
    by_cases hasTargets : placed.2.targetSignatures = []
    · simp [hasTargets]
    · obtain ⟨admitted, sameKind⟩ :=
        agree p listed placed.2 (Procedure.mem_of_placed isPlaced) hasTargets
      simp only [admitted, sameKind, if_true]

/-- Among declared edges, call site and target determine the sketch. -/
theorem sketch_eq_of_declared {e f : CallEdge} (isE : e ∈ program.declaredEdges)
    (isF : f ∈ program.declaredEdges) (sameSite : e.site = f.site)
    (sameTarget : e.target.signature = f.target.signature) : e.sketch = f.sketch := by
  obtain ⟨p, pListed, site, s, sPlaced, name, -, target, -, rfl⟩ := mem_declaredEdges.mp isE
  obtain ⟨q, qListed, site', t, tPlaced, name', -, target', -, rfl⟩ := mem_declaredEdges.mp isF
  obtain rfl : site = site' := sameSite
  obtain ⟨rfl, rfl⟩ := eq_of_site places pListed qListed sPlaced tPlaced
  simp only [CallEdge.sketch, CallSketch.mk.injEq, true_and, and_true]
  exact sameTarget

end Places

theorem pairwise_disjoint_targets (p : Procedure) (kind : Statement → EdgeKind) :
    (p.placed p.statements).Pairwise fun placed other =>
      (placed.2.targetSignatures.map (p.callTo placed.1 (kind placed.2))).Disjoint
        (other.2.targetSignatures.map (p.callTo other.1 (kind other.2))) := by
  have apart := List.pairwise_map.mp (p.nodup_sites p.statements)
  refine apart.imp fun different o isO isOther => different ?_
  obtain ⟨target, -, rfl⟩ := List.mem_map.mp isO
  obtain ⟨target', -, same⟩ := List.mem_map.mp isOther
  exact congrArg CallSketch.site same.symm

/-- The sketches of the declared edges, each once. -/
theorem eraseDups_sketch_declaredEdges (tidy : program.Tidy) (named : program.Named)
    (wellFormed : ∀ p ∈ program.applicationProcedures, ∀ s ∈ p.statements, s.WellFormed) :
    (program.declaredEdges.map (·.sketch)).eraseDups =
      program.sketches (fun _ => true) (·.declaredKind) := by
  have declared : program.declaredEdges.map (·.sketch) =
      program.applicationProcedures.flatMap fun p => (p.placed p.statements).flatMap fun placed =>
        placed.2.targetSignatures.map (p.callTo placed.1 placed.2.declaredKind) := by
    simp only [declaredEdges, declaredEdgesOf, List.map_flatMap]
    refine List.flatMap_congr fun p listed => List.flatMap_congr fun placed isPlaced => ?_
    exact sketch_declaredEdgesAt tidy p
      (wellFormed p listed placed.2 (Procedure.mem_of_placed isPlaced))
  have apart : program.applicationProcedures.Pairwise fun p q => p.place ≠ q.place :=
    List.pairwise_map.mp (tidy.nodup_places named)
  rw [declared, eraseDups_flatMap, sketches]
  · refine List.flatMap_congr fun p _ => ?_
    rw [eraseDups_flatMap (pairwise_disjoint_targets p (·.declaredKind)),
      List.filter_eq_self.mpr (by simp)]
    exact List.flatMap_congr fun placed _ => eraseDups_map (p.callTo_injective _ _) _
  · refine apart.imp fun {p q} different o isP isQ => different ?_
    obtain ⟨⟨site, s⟩, sPlaced, inS⟩ := List.mem_flatMap.mp isP
    obtain ⟨⟨site', t⟩, tPlaced, inT⟩ := List.mem_flatMap.mp isQ
    obtain ⟨m, rfl⟩ := Procedure.site_of_placed sPlaced
    obtain ⟨n, rfl⟩ := Procedure.site_of_placed tPlaced
    obtain ⟨target, -, rfl⟩ := List.mem_map.mp inS
    obtain ⟨target', -, same⟩ := List.mem_map.mp inT
    have sameSite : q.site n = p.site m := congrArg CallSketch.site same
    simp only [Procedure.site, Site.mk.injEq] at sameSite
    exact Prod.ext sameSite.2.1.symm sameSite.2.2.symm

end Program

namespace CallGraph

/-- If all targets are well-formed, then a graph is built, and its edges are those that the statements
    declare, each once. -/
theorem build_sketches (start : Inspection) (noFailures : start.failures = [])
    (tidy : start.program.Tidy) (named : start.program.Named)
    (wellFormed : ∀ p ∈ start.program.applicationProcedures, ∀ s ∈ p.statements, s.WellFormed) :
    ∃ g i, build start = .ok g i ∧ g.edges ⊆ start.program.declaredEdges ∧
      g.edges.map (·.sketch) = start.program.sketches (fun _ => true) (·.declaredKind) := by
  have resolved : ∀ p ∈ start.program.applicationProcedures, ∀ s ∈ p.statements,
      ∀ name ∈ s.declaredTargets, start.Resolves name := by
    intro p listed s isStatement name isTarget
    obtain ⟨signature, parts, rfl, splits⟩ := (wellFormed p listed s isStatement).splits isTarget
    exact Inspection.resolves_of_split splits start
  obtain ⟨g, i, returned⟩ := (returns_build_of_resolves noFailures named resolved).here
  obtain ⟨rfl, -⟩ := build_adds returned
  refine ⟨_, i, returned, fun e isEdge => ?_, ?_⟩
  · exact (mem_of_mem_foldl_addEdge isEdge).resolve_left List.not_mem_nil
  · rw [map_sketch_ofEdges fun e isE f isF =>
      Program.sketch_eq_of_declared (tidy.nodup_places named) isE isF]
    exact Program.eraseDups_sketch_declaredEdges tidy named wellFormed

/-- If a program was read from a document and its targets are well-formed signatures, then its call
    graph is built. Its edges are, in program order, one for each application procedure, each statement
    and each distinct target, direct if the statement declares one target and virtual otherwise. These
    are one for each call and each distinct target, direct if the call has one, exactly if every
    statement with targets is a call and repeats no target that is its only one. -/
theorem build_of_description {config : Config} {document : Json} {log log' : Log}
    {loaded : Program} (read : Description.program config document log = .ok loaded log')
    (wellFormed : ∀ p ∈ loaded.applicationProcedures, ∀ s ∈ p.statements, s.WellFormed) :
    ∃ g i, build { program := loaded, log := log' } = .ok g i ∧
      g.edges ⊆ loaded.declaredEdges ∧
      g.edges.map (·.sketch) = loaded.sketches (fun _ => true) (·.declaredKind) ∧
      (g.edges.map (·.sketch) = loaded.sketches (·.isCall) (·.distinctKind) ↔
        ∀ p ∈ loaded.applicationProcedures, ∀ s ∈ p.statements, s.targetSignatures ≠ [] →
          s.isCall = true ∧ s.declaredKind = s.distinctKind) := by
  have tidy := (Description.assembled_program read).tidy
  have named := Description.named_program read
  obtain ⟨g, i, returned, declared, sketches⟩ :=
    build_sketches { program := loaded, log := log' } rfl tidy named wellFormed
  refine ⟨g, i, returned, declared, sketches, ?_⟩
  rw [sketches]
  exact Program.sketches_eq_iff (tidy.nodup_places named)

/-- One procedure: a call that declares its only target twice, and a statement that declares a target
    but calls nothing. -/
def overdeclaredDocument : Json :=
  let target : Json := .text "<app.B: void g()>"
  .obj [("classes", .arr [
    .obj [
      ("name", .text "app.A"),
      ("methods", .arr [
        .obj [("subsignature", .text "void f()"), ("statements", .arr [
          .obj [("invoke", target), ("targets", .arr [target, target])],
          .obj [("targets", .arr [target])]])]])]])]

theorem build_of_description_of_overdeclared :
    ∃ (loaded : Program) (log : Log) (g : CallGraph) (i : Inspection),
      Description.program {} overdeclaredDocument #[] = .ok loaded log ∧
      (∀ p ∈ loaded.applicationProcedures, ∀ s ∈ p.statements, s.WellFormed) ∧
      build { program := loaded, log } = .ok g i ∧
      g.edges.map (·.sketch) = loaded.sketches (fun _ => true) (·.declaredKind) := by
  obtain ⟨loaded, log, read, wellFormed⟩ :
      ∃ loaded log, Description.program {} overdeclaredDocument #[] = .ok loaded log ∧
        ∀ p ∈ loaded.applicationProcedures, ∀ s ∈ p.statements, s.WellFormed :=
    ⟨_, _, by cbv, by unfold Statement.WellFormed; decide⟩
  obtain ⟨g, i, returned, -, sketches, -⟩ := build_of_description read wellFormed
  exact ⟨loaded, log, g, i, read, wellFormed, returned, sketches⟩

/-- The call gets a virtual edge, although it has one target, and the other statement gets an edge,
    although it is no call. -/
theorem repeated_and_uncalled_targets_change_edges :
    ∃ (loaded : Program) (log : Log) (g : CallGraph) (i : Inspection),
      Description.program {} overdeclaredDocument #[] = .ok loaded log ∧
      (∀ p ∈ loaded.applicationProcedures, ∀ s ∈ p.statements, s.WellFormed) ∧
      build { program := loaded, log } = .ok g i ∧
      g.edges.map (fun e => (e.site.position, e.kind)) = [(0, .virtual), (1, .direct)] ∧
      (loaded.sketches (·.isCall) (·.distinctKind)).map (fun o => (o.site.position, o.kind)) =
        [(0, .direct)] ∧
      g.edges.map (·.sketch) ≠ loaded.sketches (·.isCall) (·.distinctKind) := by
  obtain ⟨loaded, log, read, wellFormed, g, i, returned, built, called⟩ :
      ∃ loaded log, Description.program {} overdeclaredDocument #[] = .ok loaded log ∧
        (∀ p ∈ loaded.applicationProcedures, ∀ s ∈ p.statements, s.WellFormed) ∧
        ∃ g i, build { program := loaded, log } = .ok g i ∧
          g.edges.map (fun e => (e.site.position, e.kind)) = [(0, .virtual), (1, .direct)] ∧
          (loaded.sketches (·.isCall) (·.distinctKind)).map (fun o => (o.site.position, o.kind)) =
            [(0, .direct)] :=
    ⟨_, _, by cbv, by unfold Statement.WellFormed; decide, _, _, by cbv, by cbv, by cbv⟩
  refine ⟨loaded, log, g, i, read, wellFormed, returned, built, called, fun same => ?_⟩
  rw [← same, List.map_map] at called
  cases built.symm.trans called

end CallGraph

end CallWeight
