import CallWeight.Proofs.DispatchTargets

/-! # Programs whose classes and methods come in another order

Two programs are reorderings of each other if they declare the same classes with the same methods, in
any order. The class hierarchy takes declared classes out of a list one by one, but since no two of
them have the same name it does not matter where in the list they stand. So the two programs agree on
the entry of every class, on the procedure of every signature, and on what every call site may run.
-/

namespace CallWeight

namespace ClassDecl

/-- A class without its methods. -/
def bare (c : ClassDecl) : ClassDecl := { c with methods := [] }

theorem bare_eq_iff {c d : ClassDecl} :
    d.bare = c.bare ↔ d.name = c.name ∧ d.superclass = c.superclass ∧
      d.interfaces = c.interfaces ∧ d.interfaceMark = c.interfaceMark := by
  simp [bare]

/-- Whether two declarations differ in the order of their methods only. -/
structure Reordered (c d : ClassDecl) : Prop where
  bare : d.bare = c.bare
  methods : c.methods.Perm d.methods
  method? : ∀ subsignature, d.method? subsignature = c.method? subsignature

namespace Reordered

variable {c d : ClassDecl}

theorem symm (reordered : c.Reordered d) : d.Reordered c :=
  ⟨reordered.bare.symm, reordered.methods.symm,
    fun subsignature => (reordered.method? subsignature).symm⟩

theorem name (reordered : c.Reordered d) : d.name = c.name :=
  (bare_eq_iff.mp reordered.bare).1

theorem superclass (reordered : c.Reordered d) : d.superclass = c.superclass :=
  (bare_eq_iff.mp reordered.bare).2.1

theorem isInterface (reordered : c.Reordered d) : d.isInterface = c.isInterface := by
  unfold ClassDecl.isInterface
  rw [(bare_eq_iff.mp reordered.bare).2.2.2]

end Reordered

section Lists

variable {classes others : List ClassDecl} (related : List.Forall₂ Reordered classes others)

include related

theorem map_bare_of_reordered : others.map bare = classes.map bare := by
  induction related with
  | nil => rfl
  | cons same _ ih => rw [List.map_cons, List.map_cons, same.bare, ih]

theorem exists_reordered_of_mem {c : ClassDecl} (listed : c ∈ classes) :
    ∃ d ∈ others, c.Reordered d := by
  induction related with
  | nil => cases listed
  | cons same _ ih =>
      rcases List.mem_cons.mp listed with rfl | inRest
      · exact ⟨_, List.mem_cons_self, same⟩
      · obtain ⟨d, isClass, sameRest⟩ := ih inRest
        exact ⟨d, List.mem_cons_of_mem _ isClass, sameRest⟩

theorem perm_methods_of_reordered :
    (classes.flatMap (·.methods)).Perm (others.flatMap (·.methods)) := by
  induction related with
  | nil => exact .refl _
  | cons same _ ih => exact same.methods.append ih

end Lists

/-! ## Taking a class out of a list -/

theorem perm_of_pick? {name : Atom} {classes rest : List ClassDecl} {c : ClassDecl}
    (found : pick? name classes = some (c, rest)) :
    classes.Perm (c :: rest) ∧ c.name.key = name.key := by
  induction classes generalizing rest with
  | nil => cases found
  | cons d others ih =>
      by_cases same : d.name.sameKey name
      · simp only [pick?, if_pos same, Option.some.injEq, Prod.mk.injEq] at found
        obtain ⟨rfl, rfl⟩ := found
        exact ⟨.refl _, by simpa [Atom.sameKey] using same⟩
      · simp only [pick?, if_neg same, Option.map_eq_some_iff] at found
        obtain ⟨⟨e, tail⟩, inner, taken⟩ := found
        cases taken
        obtain ⟨perm, sameKey⟩ := ih inner
        exact ⟨(perm.cons d).trans (.swap _ d tail), sameKey⟩

theorem pick?_eq_none {name : Atom} {classes : List ClassDecl} :
    pick? name classes = none ↔ ∀ c ∈ classes, c.name.key ≠ name.key := by
  induction classes with
  | nil => simp [pick?]
  | cons d others ih =>
      by_cases same : d.name.key = name.key
      · simp [pick?, Atom.sameKey, same]
      · simp [pick?, Atom.sameKey, same, ih]

/-- Two lists of classes without repetition that differ in their order and in that of the methods. -/
structure SameBare (classes others : List ClassDecl) : Prop where
  perm : (classes.map bare).Perm (others.map bare)
  distinct : (classes.map (·.name.key)).Nodup

namespace SameBare

variable {classes others : List ClassDecl}

theorem keys (same : SameBare classes others) :
    (classes.map (·.name.key)).Perm (others.map (·.name.key)) := by
  have perm := same.perm.map (·.name.key)
  rwa [List.map_map, List.map_map] at perm

theorem symm (same : SameBare classes others) : SameBare others classes :=
  ⟨same.perm.symm, same.keys.nodup_iff.mp same.distinct⟩

/-- A class of the one list has a counterpart in the other one. -/
theorem exists_bare (same : SameBare classes others) {c : ClassDecl} (listed : c ∈ classes) :
    ∃ d ∈ others, d.bare = c.bare :=
  List.mem_map.mp (same.perm.mem_iff.mp (List.mem_map_of_mem listed))

theorem eq_of_key (same : SameBare classes others) {c d : ClassDecl} (cListed : c ∈ classes)
    (dListed : d ∈ classes) (sameKey : c.name.key = d.name.key) : c = d :=
  List.inj_on_of_nodup_map same.distinct cListed dListed sameKey

theorem pick?_of_none (same : SameBare classes others) {name : Atom}
    (absent : pick? name classes = none) : pick? name others = none := by
  rw [pick?_eq_none] at absent ⊢
  intro d listed
  obtain ⟨c, isClass, sameBare⟩ := same.symm.exists_bare listed
  have sameName : c.name = d.name := (bare_eq_iff.mp sameBare).1
  exact sameName ▸ absent c isClass

/-- What is taken out of the two lists, and what is left, is again the same. -/
theorem pick?_of_some (same : SameBare classes others) {name : Atom} {c : ClassDecl}
    {rest : List ClassDecl} (found : pick? name classes = some (c, rest)) :
    ∃ d left, pick? name others = some (d, left) ∧ d.bare = c.bare ∧ SameBare rest left := by
  obtain ⟨perm, isNamed⟩ := perm_of_pick? found
  cases foundOther : pick? name others with
  | none => simp [same.symm.pick?_of_none foundOther] at found
  | some result =>
      obtain ⟨d, left⟩ := result
      obtain ⟨permOther, isNamedOther⟩ := perm_of_pick? foundOther
      -- The counterpart of the class that was found has the same key, so it is that class.
      obtain ⟨e, isClass, sameBare⟩ := same.symm.exists_bare (permOther.mem_iff.mpr List.mem_cons_self)
      have sameName : e.name = d.name := (bare_eq_iff.mp sameBare).1
      have isFound : e = c := by
        refine same.eq_of_key isClass (perm.mem_iff.mpr List.mem_cons_self) ?_
        rw [sameName, isNamedOther, isNamed]
      subst isFound
      refine ⟨d, left, rfl, sameBare.symm, ?_, ?_⟩
      · have both : ((e :: rest).map bare).Perm ((d :: left).map bare) :=
          (perm.map bare).symm.trans (same.perm.trans (permOther.map bare))
        rw [List.map_cons, List.map_cons, sameBare] at both
        exact both.cons_inv
      · have distinct := (perm.map (·.name.key)).nodup_iff.mp same.distinct
        exact (List.nodup_cons.mp distinct).2

end SameBare

end ClassDecl

namespace Program

open ClassDecl

/-! ## The class hierarchy -/

section Ancestry

variable (program : Program) (start : Atom) {remaining : List ClassDecl} {name : Atom}

theorem ancestryFrom_of_some {c : ClassDecl} {rest : List ClassDecl}
    (found : pick? name remaining = some (c, rest)) :
    program.ancestryFrom start remaining (.atom name) =
      if !(Json.atom name).truthy then .done
      else if name.sameKey start then .done
      else .link name (program.ancestryFrom start rest c.superclass) := by
  rw [ancestryFrom]
  split
  · rfl
  · split
    · rfl
    · split
      · rename_i again
        cases found.symm.trans again
        rfl
      · rename_i absent
        cases found.symm.trans absent

theorem ancestryFrom_of_none (absent : pick? name remaining = none) :
    program.ancestryFrom start remaining (.atom name) =
      if !(Json.atom name).truthy then .done
      else if name.sameKey start then .done
      else if (program.class? name).isSome then .done
      else .link name .done := by
  rw [ancestryFrom]
  split
  · rfl
  · split
    · rfl
    · split
      · rename_i found
        cases absent.symm.trans found
      · rfl

end Ancestry

theorem ancestryFrom_of_sameBare {first second : Program}
    (known : ∀ name, (second.class? name).isSome = (first.class? name).isSome) (start : Atom)
    {remaining others : List ClassDecl} (same : SameBare remaining others) (superclass : Json) :
    second.ancestryFrom start others superclass = first.ancestryFrom start remaining superclass := by
  induction size : remaining.length using Nat.strong_induction_on
    generalizing remaining others superclass with
  | h n ih =>
      cases superclass with
      | arr items | obj fields =>
          unfold ancestryFrom
          rfl
      | atom name =>
          cases found : pick? name remaining with
          | none =>
              rw [ancestryFrom_of_none _ _ found,
                ancestryFrom_of_none _ _ (same.pick?_of_none found), known]
          | some result =>
              obtain ⟨c, rest⟩ := result
              obtain ⟨d, left, foundOther, sameBare, sameRest⟩ := same.pick?_of_some found
              have shorter := length_of_pick? found
              have above := ih rest.length (by omega) sameRest c.superclass rfl
              have sameSuperclass := (bare_eq_iff.mp sameBare).2.1
              rw [ancestryFrom_of_some _ _ found, ancestryFrom_of_some _ _ foundOther,
                sameSuperclass, above]

section Search

variable (target : Json) (start : Atom) {remaining : List ClassDecl} {name : Atom}
  (stack : List Json)

theorem searchAbove_of_some {c : ClassDecl} {rest : List ClassDecl}
    (found : pick? name remaining = some (c, rest)) :
    searchAbove target start remaining (.atom name :: stack) =
      if target.equalsAtom name && !name.equals start then .ok true
      else searchAbove target start rest (c.parents ++ stack) := by
  rw [searchAbove]
  split
  · rfl
  · split
    · rename_i again
      cases found.symm.trans again
      rfl
    · rename_i absent
      cases found.symm.trans absent

theorem searchAbove_of_none (absent : pick? name remaining = none) :
    searchAbove target start remaining (.atom name :: stack) =
      if target.equalsAtom name && !name.equals start then .ok true
      else searchAbove target start remaining stack := by
  rw [searchAbove]
  split
  · rfl
  · split
    · rename_i found
      cases absent.symm.trans found
    · rfl

end Search

theorem searchAbove_of_sameBare (target : Json) (start : Atom) {remaining others : List ClassDecl}
    (same : SameBare remaining others) (stack : List Json) :
    searchAbove target start others stack = searchAbove target start remaining stack := by
  -- A class leaves the list, or the list stays and a name leaves the stack.
  induction size : remaining.length using Nat.strong_induction_on
    generalizing remaining others stack with
  | h n ih =>
      induction stack with
      | nil =>
          unfold searchAbove
          rfl
      | cons value stack ihStack =>
          cases value with
          | arr items | obj fields =>
              unfold searchAbove
              rfl
          | atom name =>
              cases found : pick? name remaining with
              | none =>
                  rw [searchAbove_of_none _ _ _ found,
                    searchAbove_of_none _ _ _ (same.pick?_of_none found), ihStack]
              | some result =>
                  obtain ⟨c, rest⟩ := result
                  obtain ⟨d, left, foundOther, sameBare, sameRest⟩ := same.pick?_of_some found
                  have shorter := length_of_pick? found
                  have above := ih rest.length (by omega) sameRest (c.parents ++ stack) rfl
                  obtain ⟨-, sameSuperclass, sameInterfaces, -⟩ := bare_eq_iff.mp sameBare
                  have sameParents : d.parents = c.parents := by
                    simp only [ClassDecl.parents, sameSuperclass, sameInterfaces]
                  rw [searchAbove_of_some _ _ _ found, searchAbove_of_some _ _ _ foundOther,
                    sameParents, above]

/-! ## Reordered programs -/

/-- Whether two programs declare the same, up to the order of the classes and of their methods. -/
structure Reordered (first second : Program) : Prop where
  config : second.config = first.config
  classes : ∃ middle, first.classes.values.Perm middle ∧
    List.Forall₂ ClassDecl.Reordered middle second.classes.values
  distinct : (first.classes.values.map (·.name.key)).Nodup
  class? : ∀ name, Option.Rel ClassDecl.Reordered (first.class? name) (second.class? name)
  procedure : ∀ signature,
    (second.procedure signature).map Prod.fst = (first.procedure signature).map Prod.fst

namespace Reordered

variable {first second : Program}

theorem sameBare (reordered : first.Reordered second) :
    SameBare first.classes.values second.classes.values := by
  obtain ⟨middle, perm, related⟩ := reordered.classes
  refine ⟨?_, reordered.distinct⟩
  rw [map_bare_of_reordered related]
  exact perm.map ClassDecl.bare

theorem symm (reordered : first.Reordered second) : second.Reordered first where
  config := reordered.config.symm
  classes := by
    obtain ⟨middle, perm, related⟩ := reordered.classes
    have back : List.Forall₂ ClassDecl.Reordered second.classes.values middle := by
      refine List.Forall₂.imp (fun _ _ isReordered => ClassDecl.Reordered.symm isReordered) related.flip
    have swapped := List.forall₂_comp_perm_eq_perm_comp_forall₂ (r := ClassDecl.Reordered)
    have split : (Relation.Comp (List.Forall₂ ClassDecl.Reordered) List.Perm)
        second.classes.values first.classes.values := ⟨middle, back, perm.symm⟩
    rw [swapped] at split
    exact split
  distinct := reordered.sameBare.symm.distinct
  class? name := by
    have related := reordered.class? name
    generalize first.class? name = c at related ⊢
    generalize second.class? name = d at related ⊢
    cases related with
    | none => exact .none
    | some isReordered => exact .some isReordered.symm
  procedure signature := (reordered.procedure signature).symm

theorem ancestry (reordered : first.Reordered second) {c d : ClassDecl} (same : c.Reordered d) :
    second.ancestry d = first.ancestry c := by
  have known (name : Atom) : (second.class? name).isSome = (first.class? name).isSome := by
    have related := reordered.class? name
    generalize first.class? name = e at related ⊢
    generalize second.class? name = f at related ⊢
    cases related with
    | none => rfl
    | some isReordered => rfl
  unfold Program.ancestry
  rw [same.name, same.superclass]
  exact ancestryFrom_of_sameBare known _ reordered.sameBare _

theorem entryAbove (reordered : first.Reordered second) (subsignature : Atom) (above : Ancestry) :
    second.entryAbove subsignature above = first.entryAbove subsignature above := by
  induction above with
  | done | broken => rfl
  | link name rest ih =>
      have related := reordered.class? name
      unfold Program.entryAbove
      rw [reordered.config, ih]
      generalize first.class? name = c at related ⊢
      generalize second.class? name = d at related ⊢
      cases related with
      | none => rfl
      | some isReordered => simp only [isReordered.method?]

theorem entrySearch (reordered : first.Reordered second) {c d : ClassDecl} (same : c.Reordered d) :
    second.entrySearch d = first.entrySearch c := by
  simp only [Program.entrySearch, reordered.config, same.method?, reordered.ancestry same,
    reordered.entryAbove]

theorem entryPoint (reordered : first.Reordered second) {c d : ClassDecl} (same : c.Reordered d) :
    second.entryPoint d = first.entryPoint c := by
  simp only [Program.entryPoint, reordered.entrySearch same, reordered.procedure]

theorem threadEntry (reordered : first.Reordered second) {c d : ClassDecl} (same : c.Reordered d) :
    second.threadEntry d = first.threadEntry c := by
  have implements : second.implementsRunnable d = first.implementsRunnable c := by
    unfold implementsRunnable
    rw [reordered.config, same.name]
    exact searchAbove_of_sameBare _ _ reordered.sameBare _
  have descends : second.isThreadSubclass d = first.isThreadSubclass c := by
    unfold isThreadSubclass
    rw [reordered.config, reordered.ancestry same]
  simp only [Program.threadEntry, isRunnable, implements, descends, reordered.entryPoint same]

/-! ## Application code -/

theorem applicationClasses (reordered : first.Reordered second) :
    ∃ middle, first.applicationClasses.Perm middle ∧
      List.Forall₂ ClassDecl.Reordered middle second.applicationClasses := by
  obtain ⟨middle, perm, related⟩ := reordered.classes
  unfold Program.applicationClasses
  rw [reordered.config]
  refine ⟨_, perm.filter _, ?_⟩
  refine List.rel_filter (fun c d same => ?_) related
  simp only [same.name]

theorem exists_applicationClass (reordered : first.Reordered second) {c : ClassDecl}
    (listed : c ∈ first.applicationClasses) : ∃ d ∈ second.applicationClasses, c.Reordered d := by
  obtain ⟨middle, perm, related⟩ := reordered.applicationClasses
  exact exists_reordered_of_mem related (perm.mem_iff.mp listed)

theorem applicationProcedures (reordered : first.Reordered second) :
    first.applicationProcedures.Perm second.applicationProcedures := by
  obtain ⟨middle, perm, related⟩ := reordered.applicationClasses
  exact (perm.flatMap_right _).trans (perm_methods_of_reordered related)

/-! ## What call sites may run -/

theorem names (reordered : first.Reordered second) (signature : Text) (p : Procedure) :
    second.Names signature p ↔ first.Names signature p := by
  simp only [Names, reordered.procedure]

theorem taskEntry (reordered : first.Reordered second) {s : Statement} {p : Procedure}
    (entry : first.TaskEntry s p) : second.TaskEntry s p := by
  obtain ⟨type, typed, c, known, concrete, isEntry⟩ := entry
  have related := reordered.class? type
  rw [known] at related
  cases found : second.class? type with
  | none =>
      rw [found] at related
      cases related
  | some d =>
      rw [found] at related
      cases related with
      | some same =>
          refine ⟨type, typed, d, found, ?_, ?_⟩
          · rw [same.isInterface, concrete]
          · rw [reordered.entryPoint same, isEntry]

theorem runnableEntry (reordered : first.Reordered second) {p : Procedure}
    (entry : first.RunnableEntry p) : second.RunnableEntry p := by
  obtain ⟨c, listed, concrete, isEntry⟩ := entry
  obtain ⟨d, isClass, same⟩ := reordered.exists_applicationClass listed
  refine ⟨d, isClass, ?_, ?_⟩
  · rw [same.isInterface, concrete]
  · rw [reordered.threadEntry same, isEntry]

theorem dispatches (reordered : first.Reordered second) {g h : CallGraph}
    (sameEdges : ∀ e, e ∈ h.edges ↔ e ∈ g.edges) {caller : Procedure} {site : Site} {s : Statement}
    {kind : EdgeKind} {target : Procedure}
    (dispatches : first.Dispatches g caller site s kind target) :
    second.Dispatches h caller site s kind target := by
  have config := reordered.config
  cases dispatches with
  | submit invoked submits entry =>
      exact .submit invoked (config ▸ submits) (reordered.taskEntry entry)
  | start invoked submitsNot starts entry other =>
      exact .start invoked (config ▸ submitsNot) (config ▸ starts) (reordered.runnableEntry entry) other
  | fallback invoked submitsNot startsNot unresolved named =>
      refine .fallback invoked (config ▸ submitsNot) (config ▸ startsNot) (fun e isEdge => ?_) ?_
      · exact unresolved e ((sameEdges e).mp isEdge)
      · exact (reordered.names _ target).mpr named

theorem lacks (reordered : first.Reordered second) {g h : CallGraph}
    (sameEdges : ∀ e, e ∈ h.edges ↔ e ∈ g.edges) {p : Procedure} {e : CallEdge}
    (lacks : first.Lacks g p e) : second.Lacks h p e := by
  obtain ⟨body, hasBody, site, s, isPlaced, kind, target, dispatches, others, isEdge⟩ := lacks
  refine ⟨body, hasBody, site, s, isPlaced, kind, target, reordered.dispatches sameEdges dispatches,
    fun f isOther => ?_, isEdge⟩
  exact others f ((sameEdges f).mp isOther)

end Reordered

end Program

end CallWeight
