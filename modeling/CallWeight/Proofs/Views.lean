import CallWeight.CallGraph.Components
import CallWeight.Proofs.BatchRuns
import CallWeight.Proofs.ReorderedDocuments

/-! # Programs seen through a view

A view turns procedures into others of the same name that an analysis cannot tell from them: for
application code it keeps the loops, and of each statement whatever is asked about its call. Classes,
programs, call edges and call graphs are viewed procedure by procedure. Names, hierarchy and the shape
of a graph stay the same, so whatever is looked up in a program seen through a view is what is found in
the program itself, seen through the view.
-/

namespace CallWeight

namespace OrderedMap

variable {α β γ : Type}

/-- Change every value and keep the keys. -/
def mapValues (f : β → γ) (m : OrderedMap α β) : OrderedMap α γ :=
  { entries := m.entries.map fun entry => (entry.1, f entry.2) }

@[simp] theorem keys_mapValues (f : β → γ) (m : OrderedMap α β) :
    (m.mapValues f).keys = m.keys := by
  simp [keys, mapValues, Function.comp_def]

@[simp] theorem values_mapValues (f : β → γ) (m : OrderedMap α β) :
    (m.mapValues f).values = m.values.map f := by
  simp [values, mapValues, Function.comp_def]

@[simp] theorem size_mapValues (f : β → γ) (m : OrderedMap α β) :
    (m.mapValues f).size = m.size := by
  simp [size, mapValues]

variable [DecidableEq α]

@[simp] theorem get?_mapValues (f : β → γ) (m : OrderedMap α β) (key : α) :
    (m.mapValues f).get? key = (m.get? key).map f := by
  obtain ⟨entries⟩ := m
  simp only [get?, mapValues]
  induction entries with
  | nil => rfl
  | cons entry rest ih =>
      by_cases same : entry.1 = key
      · simp [lookupIn, same]
      · simp [lookupIn, same, ih]

@[simp] theorem contains_mapValues (f : β → γ) (m : OrderedMap α β) (key : α) :
    (m.mapValues f).contains key = m.contains key := by
  simp [contains]

theorem mapValues_insert (f : β → γ) (m : OrderedMap α β) (key : α) (value : β) :
    (m.insert key value).mapValues f = (m.mapValues f).insert key (f value) := by
  obtain ⟨entries⟩ := m
  simp only [insert, mapValues, mk.injEq]
  induction entries with
  | nil => rfl
  | cons entry rest ih =>
      by_cases same : entry.1 = key
      · simp [insertIn, same]
      · simp [insertIn, same, ih]

theorem mapValues_insertNew (f : β → γ) (m : OrderedMap α β) (key : α) (value : β) :
    (m.insertNew key value).mapValues f = (m.mapValues f).insertNew key (f value) := by
  unfold insertNew
  rw [contains_mapValues]
  split
  · rfl
  · exact mapValues_insert f m key value

end OrderedMap

/-- A way to look at procedures that keeps what an analysis under the configuration asks about. -/
structure View (config : Config) where
  procedure : Procedure → Procedure
  statement : Statement → Statement
  declaringClass : ∀ p, (procedure p).declaringClass = p.declaringClass
  subsignature : ∀ p, (procedure p).subsignature = p.subsignature
  /-- A procedure that has only a name is not changed. -/
  bare : ∀ name subsignature, procedure { declaringClass := name, subsignature } =
    { declaringClass := name, subsignature }
  body : ∀ {p}, config.isApplicationClass p.declaringClass = true →
    (procedure p).body = p.body.map (List.map statement)
  loops : ∀ {p}, config.isApplicationClass p.declaringClass = true → (procedure p).loops = p.loops
  index : ∀ s, (statement s).index = s.index
  invokedMethod : ∀ s, (statement s).invokedMethod = s.invokedMethod
  firstArgType : ∀ s, (statement s).firstArgType = s.firstArgType
  declaredTargets : ∀ s, (statement s).declaredTargets = s.declaredTargets

variable {config : Config} (view : View config)

namespace View

theorem isCall (s : Statement) : (view.statement s).isCall = s.isCall := by
  rw [Statement.isCall, Statement.isCall, view.invokedMethod]

/-- The view of a statement at its site. -/
def placed (placed : Site × Statement) : Site × Statement := (placed.1, view.statement placed.2)

end View

namespace Procedure

/-- The procedure seen through a view. -/
def through (p : Procedure) : Procedure := view.procedure p

variable (p : Procedure)

@[simp] theorem declaringClass_through : (p.through view).declaringClass = p.declaringClass :=
  view.declaringClass p

@[simp] theorem subsignature_through : (p.through view).subsignature = p.subsignature :=
  view.subsignature p

@[simp] theorem signature_through : (p.through view).signature = p.signature := by
  simp [signature]

theorem placed_through (body : List Statement) :
    (p.through view).placed (body.map view.statement) = (p.placed body).map view.placed := by
  simp [placed, View.placed, site, List.zipIdx_map, Function.comp_def]

variable {view p}

theorem through_phantom {signature : Text} (made : phantom signature = .ok p) : p.through view = p := by
  obtain ⟨parts, -, rest⟩ := ok_of_exceptBind made
  cases rest
  exact view.bare _ _

theorem depthMap_through (accepted : config.isApplicationClass p.declaringClass = true) :
    (p.through view).depthMap = p.depthMap := by
  have loops : (p.through view).loops = p.loops := view.loops accepted
  simp only [depthMap, declaringClass_through, subsignature_through, loops]

end Procedure

namespace ClassDecl

/-- The class with its methods seen through a view. -/
def through (c : ClassDecl) : ClassDecl := { c with methods := c.methods.map (·.through view) }

@[simp] theorem name_through (c : ClassDecl) : (c.through view).name = c.name := rfl

@[simp] theorem isInterface_through (c : ClassDecl) : (c.through view).isInterface = c.isInterface := rfl

@[simp] theorem method?_through (c : ClassDecl) (subsignature : Atom) :
    (c.through view).method? subsignature = (c.method? subsignature).map (·.through view) := by
  simp [method?, through, List.find?_map]

theorem insertMethod_through (p : Procedure) (methods : List Procedure) :
    insertMethod (p.through view) (methods.map (·.through view)) =
      (insertMethod p methods).map (·.through view) := by
  induction methods with
  | nil => rfl
  | cons q rest ih =>
      rw [List.map_cons, insertMethod, insertMethod, ih]
      simp only [Procedure.subsignature_through]
      split <;> rfl

theorem addMethod_through (c : ClassDecl) (p : Procedure) :
    (c.through view).addMethod (p.through view) = (c.addMethod p).map (·.through view) := by
  unfold addMethod
  simp only [Procedure.declaringClass_through, Procedure.signature_through, name_through]
  split
  · simp only [through, insertMethod_through, Except.map]
  · rfl

theorem make_through (shell : ClassDecl) (methods : List Procedure) :
    make shell (methods.map (·.through view)) = (make shell methods).map (·.through view) := by
  have added (c : ClassDecl) : (methods.map (·.through view)).foldlM addMethod (c.through view) =
      (methods.foldlM addMethod c).map (·.through view) := by
    induction methods generalizing c with
    | nil => rfl
    | cons p rest ih =>
        rw [List.map_cons, List.foldlM_cons, List.foldlM_cons, addMethod_through]
        cases c.addMethod p with
        | error fault => rfl
        | ok next => exact ih next
  exact added { shell with
    superclass := if shell.superclass.equalsAtom shell.name then .null else shell.superclass
    methods := [] }

variable {view}

theorem sameBare_through {classes : List ClassDecl} (distinct : (classes.map (·.name.key)).Nodup) :
    SameBare classes (classes.map (through view)) := by
  refine ⟨?_, distinct⟩
  rw [List.map_map]
  exact .refl _

end ClassDecl

namespace Program

/-- The program with the procedures of all its tables seen through a view. -/
def through (program : Program) : Program :=
  { program with
    classes := program.classes.mapValues (·.through view)
    procedures := program.procedures.mapValues (·.through view) }

/-- Whether the classes of a program have different names and own their methods, and the program is
    read under the given configuration. -/
structure Settled (config : Config) (program : Program) : Prop where
  configured : program.config = config
  owned : ∀ c ∈ program.classes.values, c.OwnsMethods
  distinct : (program.classes.values.map (·.name.key)).Nodup

theorem Settled.alike {program after : Program} (settled : program.Settled config) (alike : program.Alike after) : after.Settled config where
  configured := alike.config.trans settled.configured
  owned := alike.classes ▸ settled.owned
  distinct := alike.classes ▸ settled.distinct

/-- What the program lists as application code is accepted as such. -/
theorem Settled.accepted {program : Program} (settled : program.Settled config) :
    ∀ p ∈ program.applicationProcedures, config.isApplicationClass p.declaringClass = true :=
  fun _ listed => settled.configured ▸ accepted_of_listed settled.owned listed

/-! ## Loading -/

theorem fileAll_through (table : OrderedMap Text Procedure) (methods : List Procedure) :
    fileAll (table.mapValues (·.through view)) (methods.map (·.through view)) =
      (fileAll table methods).mapValues (·.through view) := by
  induction methods generalizing table with
  | nil => rfl
  | cons p rest ih =>
      have next := ih (table.insert p.signature p)
      rw [OrderedMap.mapValues_insert] at next
      simpa [fileAll] using next

theorem addClass_through (program : Program) (c : ClassDecl) :
    (program.through view).addClass (c.through view) =
      (program.addClass c).map (·.through view) := by
  have filed := fileAll_through view program.procedures c.methods
  unfold fileAll at filed
  unfold addClass
  simp only [through, OrderedMap.contains_mapValues, ClassDecl.name_through]
  split
  · rfl
  · simp only [Except.map, OrderedMap.mapValues_insert, ClassDecl.through, filed]

theorem addClasses_through (program : Program) (classes : List ClassDecl) :
    (classes.map (·.through view)).foldlM addClass (program.through view) =
      (classes.foldlM addClass program).map (·.through view) := by
  induction classes generalizing program with
  | nil => rfl
  | cons c rest ih =>
      rw [List.map_cons, List.foldlM_cons, List.foldlM_cons, addClass_through]
      cases program.addClass c with
      | error fault => rfl
      | ok next => exact ih next

/-- Programs of classes that look the same look the same. -/
theorem through_eq_of_classes {view : View config} {classes others : List ClassDecl}
    {first second : Program} (loaded : ofClasses config classes = .ok first)
    (loadedOther : ofClasses config others = .ok second)
    (same : classes.map (·.through view) = others.map (·.through view)) :
    first.through view = second.through view := by
  have seen := addClasses_through view { config } classes
  have seenOther := addClasses_through view { config } others
  unfold ofClasses at loaded loadedOther
  rw [loaded] at seen
  rw [loadedOther, ← same] at seenOther
  exact Except.ok.inj (seen.symm.trans seenOther)

theorem settled_of_classes {classes : List ClassDecl} {program : Program}
    (made : ∀ c ∈ classes, ∃ shell methods, ClassDecl.make shell methods = .ok c)
    (loaded : ofClasses config classes = .ok program) : program.Settled config := by
  obtain ⟨isConfig, -, values, -⟩ := addClasses_fields loaded
  have values : program.classes.values = classes := values
  refine ⟨isConfig, ?_, values ▸ (class?_of_addClasses loaded).1⟩
  intro c isClass
  obtain ⟨shell, methods, isMade⟩ := made c (values ▸ isClass)
  exact ClassDecl.ownsMethods_of_make isMade

/-! ## Looking things up -/

section Lookup

variable (program : Program)

@[simp] theorem config_through : (program.through view).config = program.config := rfl

@[simp] theorem class?_through (name : Atom) :
    (program.through view).class? name = (program.class? name).map (·.through view) := by
  simp [class?, through]

theorem procedure_through (signature : Text) :
    (program.through view).procedure signature =
      (program.procedure signature).map fun found => (found.1.through view, found.2.through view) := by
  unfold procedure
  simp only [through, OrderedMap.get?_mapValues]
  cases program.procedures.get? signature with
  | some p => rfl
  | none =>
      cases made : Procedure.phantom signature with
      | error fault => rfl
      | ok p =>
          have same : p.through view = p := Procedure.through_phantom made
          have filed := OrderedMap.mapValues_insert (·.through view) program.procedures signature p
          simp only [Option.map_none, bind, Except.bind, pure, Except.pure, Except.map, filed, same]

theorem isApplication_through (p : Procedure) :
    (program.through view).isApplication (p.through view) = program.isApplication p := by
  simp only [isApplication, Procedure.className, Procedure.declaringClass_through, config_through]

theorem requireNames_through : (program.through view).requireNames = program.requireNames := by
  simp only [requireNames, through, OrderedMap.values_mapValues]
  generalize program.classes.values = classes
  induction classes with
  | nil => rfl
  | cons c rest ih =>
      rw [List.map_cons]
      refine congrArg₂ bind rfl (funext fun _ => ih)

theorem applicationClasses_through :
    (program.through view).applicationClasses = program.applicationClasses.map (·.through view) := by
  simp [applicationClasses, through, List.filter_map, Function.comp_def]

theorem applicationProcedures_through :
    (program.through view).applicationProcedures =
      program.applicationProcedures.map (·.through view) := by
  simp [applicationProcedures, applicationClasses_through, List.flatMap_map, List.map_flatMap,
    ClassDecl.through]

theorem depthMap_through {p : Procedure}
    (accepted : config.isApplicationClass p.declaringClass = true) :
    (program.through view).depthMap (p.through view) =
      ((program.depthMap p).1, (program.depthMap p).2.through view) := by
  unfold depthMap
  rw [Procedure.signature_through, Procedure.depthMap_through accepted]
  simp only [through]
  split <;> rfl

end Lookup

/-! ## The class hierarchy -/

section Hierarchy

variable {view} {program : Program} (settled : program.Settled config)

include settled

theorem Settled.sameBare :
    ClassDecl.SameBare program.classes.values (program.through view).classes.values := by
  simpa [through] using ClassDecl.sameBare_through settled.distinct

theorem Settled.ancestry (c : ClassDecl) :
    (program.through view).ancestry (c.through view) = program.ancestry c :=
  ancestryFrom_of_sameBare (by simp) c.name settled.sameBare c.superclass

theorem Settled.isThreadSubclass (c : ClassDecl) :
    (program.through view).isThreadSubclass (c.through view) = program.isThreadSubclass c := by
  simp only [Program.isThreadSubclass, settled.ancestry, config_through]

theorem Settled.implementsRunnable (c : ClassDecl) :
    (program.through view).implementsRunnable (c.through view) = program.implementsRunnable c :=
  searchAbove_of_sameBare _ _ settled.sameBare _

end Hierarchy

/-- The search with its procedure seen through a view. -/
def EntrySearch.through : EntrySearch → EntrySearch
  | .found p => .found (p.through view)
  | .missing => .missing
  | .undeclared signature => .undeclared signature

theorem entryAbove_through (program : Program) (subsignature : Atom) (above : Ancestry) :
    (program.through view).entryAbove subsignature above =
      (program.entryAbove subsignature above).map (·.through view) := by
  induction above with
  | done | broken => rfl
  | link name rest ih =>
      simp only [entryAbove, class?_through]
      cases program.class? name with
      | none =>
          simp only [Option.map_none, config_through]
          by_cases isThread : program.config.threadClass.equalsAtom name
          · simp [isThread, Except.map, EntrySearch.through]
          · simp [isThread, Except.map, EntrySearch.through]
      | some c =>
          simp only [Option.map_some, ClassDecl.method?_through]
          cases c.method? subsignature with
          | some p => rfl
          | none => exact ih

theorem Settled.entrySearch {program : Program} (settled : program.Settled config)
    (c : ClassDecl) :
    (program.through view).entrySearch (c.through view) =
      (program.entrySearch c).map (·.through view) := by
  unfold Program.entrySearch
  rw [config_through]
  cases program.config.entrySubsignature.asKey with
  | error fault => rfl
  | ok subsignature =>
      simp only [bind, Except.bind, ClassDecl.method?_through]
      cases c.method? subsignature with
      | some p => rfl
      | none =>
          simp only [Option.map_none, settled.ancestry]
          exact entryAbove_through view program subsignature _

end Program

/-! ## Call graphs -/

namespace CallEdge

/-- The edge with its ends seen through a view. -/
def through (e : CallEdge) : CallEdge :=
  { e with source := e.source.through view, target := e.target.through view }

end CallEdge

namespace CallGraph

/-- The graph with its procedures seen through a view. -/
def through (g : CallGraph) : CallGraph where
  nodes := g.nodes.mapValues (·.through view)
  edges := g.edges.map (·.through view)
  bySite := g.bySite.mapValues (·.map (·.through view))
  bySource := g.bySource.mapValues (·.map (·.through view))
  byTarget := g.byTarget.mapValues (·.map (·.through view))

variable (g : CallGraph)

@[simp] theorem edgesOutOf_through (site : Site) :
    (g.through view).edgesOutOf site = (g.edgesOutOf site).map (·.through view) := by
  simp only [edgesOutOf, through, OrderedMap.get?_mapValues]
  cases g.bySite.get? site <;> rfl

@[simp] theorem edgesFrom_through (signature : Text) :
    (g.through view).edgesFrom signature = (g.edgesFrom signature).map (·.through view) := by
  simp only [edgesFrom, through, OrderedMap.get?_mapValues]
  cases g.bySource.get? signature <;> rfl

@[simp] theorem hasEdge_through (site : Site) (signature : Text) :
    (g.through view).hasEdge site signature = g.hasEdge site signature := by
  simp [hasEdge, CallEdge.through, Function.comp_def]

@[simp] theorem isSelfRecursive_through (signature : Text) :
    (g.through view).isSelfRecursive signature = g.isSelfRecursive signature := by
  simp [isSelfRecursive, CallEdge.through, Function.comp_def]

theorem callees_through : (g.through view).callees = g.callees := by
  simp [callees, through, CallEdge.through, ← List.map_flatten, Function.comp_def]

theorem file_through {α : Type} [DecidableEq α] (index : OrderedMap α (List CallEdge)) (key : α)
    (e : CallEdge) :
    file (index.mapValues (·.map (·.through view))) key (e.through view) =
      (file index key e).mapValues (·.map (·.through view)) := by
  simp only [file, OrderedMap.mapValues_insert, OrderedMap.get?_mapValues, List.map_append]
  cases index.get? key <;> rfl

theorem insertEdge_through (e : CallEdge) :
    (g.through view).insertEdge (e.through view) = (g.insertEdge e).through view := by
  simp only [insertEdge, through, file_through, OrderedMap.mapValues_insertNew, List.map_append,
    List.map_cons, List.map_nil]
  simp only [CallEdge.through, Procedure.signature_through]

theorem addEdge_through (e : CallEdge) :
    (g.through view).addEdge (e.through view) = (g.addEdge e).through view := by
  unfold addEdge
  rw [insertEdge_through, hasEdge_through]
  simp only [CallEdge.through, Procedure.signature_through]
  split <;> rfl

/-! ## Components -/

/-- The search with the edges on its path seen through a view. -/
def Search.through (s : Search) : Search :=
  { s with path := s.path.map fun step => (step.1, step.2.map (·.through view)) }

theorem Search.meet_through (s : Search) (signature : Text) :
    (s.through view).meet (g.through view) signature = (s.meet g signature).through view := by
  simp only [meet, through, edgesFrom_through, List.map_cons]

theorem Search.close_through (s : Search) (signature : Text) :
    (s.through view).close signature = (s.close signature).through view := by
  unfold close
  by_cases isRoot : s.lowestOf signature = s.numberOf signature
  · rw [if_pos isRoot]
    exact if_pos isRoot
  · rw [if_neg isRoot]
    exact if_neg isRoot

theorem Search.inform_through (s : Search) (signature : Text) :
    (s.through view).inform signature = (s.inform signature).through view := by
  obtain ⟨unmet, number, lowest, stack, path, closed⟩ := s
  cases path with
  | nil => rfl
  | cons step rest => rfl

section Follow

variable {g : CallGraph} {s : Search} {signature : Text} {e : CallEdge} {edges : List CallEdge}
  {rest : List (Text × List CallEdge)}

theorem Search.follow_of_ended (ended : s.path = []) : follow g s = s := by
  rw [follow]
  split <;> simp_all

theorem Search.follow_of_done (onPath : s.path = (signature, []) :: rest) :
    follow g s = follow g (({ s with path := rest }.inform signature).close signature) := by
  obtain ⟨unmet, number, lowest, stack, path, closed⟩ := s
  subst onPath
  rw [follow]

theorem Search.follow_of_edge (onPath : s.path = (signature, e :: edges) :: rest) :
    follow g s =
      if e.target.signature ∈ s.unmet then
        follow g ({ s with path := (signature, edges) :: rest }.meet g e.target.signature)
      else if e.target.signature ∈ s.stack then
        follow g ({ s with path := (signature, edges) :: rest }.reach signature
          (s.numberOf e.target.signature))
      else follow g { s with path := (signature, edges) :: rest } := by
  obtain ⟨unmet, number, lowest, stack, path, closed⟩ := s
  subst onPath
  rw [follow]

end Follow

theorem Search.follow_through (s : Search) :
    follow (g.through view) (s.through view) = (follow g s).through view := by
  have path {step : Text × List CallEdge} {rest : List (Text × List CallEdge)} {s : Search}
      (onPath : s.path = step :: rest) : (s.through view).path =
        (step.1, step.2.map (·.through view)) ::
          rest.map fun step => (step.1, step.2.map (·.through view)) := by
    simp [through, onPath]
  fun_induction follow g s with
  | case1 s ended => exact follow_of_ended (by simp [through, ended])
  | case2 s signature rest onPath ih =>
      rw [follow_of_done (path onPath), ← ih, ← close_through, ← inform_through]
      rfl
  | case3 s signature e edges rest onPath target s' isUnmet ih =>
      rw [follow_of_edge (path onPath), ← ih, ← meet_through]
      simp only [CallEdge.through, Procedure.signature_through]
      exact if_pos isUnmet
  | case4 s signature e edges rest onPath target s' isMet isOpen ih =>
      rw [follow_of_edge (path onPath), ← ih]
      simp only [CallEdge.through, Procedure.signature_through]
      exact (if_neg isMet).trans (if_pos isOpen)
  | case5 s signature e edges rest onPath target s' isMet isClosed ih =>
      rw [follow_of_edge (path onPath), ← ih]
      simp only [CallEdge.through, Procedure.signature_through]
      exact (if_neg isMet).trans (if_neg isClosed)

theorem components_through : (g.through view).components = g.components := by
  have keys : (g.through view).nodes.keys = g.nodes.keys := by simp [through]
  have rounds (roots : List Text) (s : Search) :
      roots.foldl (fun s root => if root ∈ s.unmet then Search.follow (g.through view)
        (s.meet (g.through view) root) else s) (s.through view) =
      (roots.foldl (fun s root => if root ∈ s.unmet then Search.follow g (s.meet g root) else s)
        s).through view := by
    induction roots generalizing s with
    | nil => rfl
    | cons root rest ih =>
        rw [List.foldl_cons, List.foldl_cons, ← ih, Search.meet_through, Search.follow_through]
        congr 1
        exact (apply_ite (Search.through view) _ _ _).symm
  unfold components
  rw [keys]
  have searched := rounds g.nodes.keys { unmet := g.nodes.keys }
  exact (congrArg (fun s : Search => s.closed.reverse) searched).trans rfl

theorem cycles_through : (g.through view).cycles = g.cycles := by
  simp only [cycles, components_through, isSelfRecursive_through]

end CallGraph

end CallWeight
