import CallWeight.Proofs.ViewedAnalysis

/-! # What library bodies contain does not matter

The mask of a procedure is the procedure itself if it is application code. Otherwise it is a procedure
of the same name with neither body nor loops. Masking is a view, so two programs that have the same
mask lead to the same edges, recursive sets, costs, issues and ranking.
-/

namespace CallWeight

variable (config : Config)

namespace Procedure

/-- The procedure, without its body and its loops unless it is application code. -/
def mask (p : Procedure) : Procedure :=
  if config.isApplicationClass p.declaringClass then p
  else { declaringClass := p.declaringClass, subsignature := p.subsignature }

variable (p : Procedure)

@[simp] theorem declaringClass_mask : (p.mask config).declaringClass = p.declaringClass := by
  unfold mask
  split <;> rfl

@[simp] theorem subsignature_mask : (p.mask config).subsignature = p.subsignature := by
  unfold mask
  split <;> rfl

variable {config p}

theorem mask_eq_self (accepted : config.isApplicationClass p.declaringClass = true) :
    p.mask config = p := if_pos accepted

/-- Whether two procedures are the same, or have the same name and are both library code. -/
def Resembles (config : Config) (p q : Procedure) : Prop :=
  p = q ∨ p.declaringClass = q.declaringClass ∧ p.subsignature = q.subsignature ∧
    config.isApplicationClass p.declaringClass = false

theorem resembles_iff {q : Procedure} : p.Resembles config q ↔ p.mask config = q.mask config := by
  constructor
  · rintro (rfl | ⟨sameClass, sameName, library⟩)
    · rfl
    · simp [mask, ← sameClass, ← sameName, library]
  · intro same
    have sameClass := congrArg declaringClass same
    have sameName := congrArg subsignature same
    rw [declaringClass_mask, declaringClass_mask] at sameClass
    rw [subsignature_mask, subsignature_mask] at sameName
    cases accepted : config.isApplicationClass p.declaringClass with
    | false => exact .inr ⟨sameClass, sameName, accepted⟩
    | true =>
        rw [mask_eq_self accepted, mask_eq_self (sameClass ▸ accepted)] at same
        exact .inl same

end Procedure

/-- Library code without bodies and loops. -/
def View.mask : View config where
  procedure := Procedure.mask config
  statement := id
  declaringClass := Procedure.declaringClass_mask config
  subsignature := Procedure.subsignature_mask config
  bare _ _ := ite_self _
  body accepted := by
    rw [Procedure.mask_eq_self accepted, List.map_id_fun, Option.map_id, id]
  loops accepted := by rw [Procedure.mask_eq_self accepted]
  index _ := rfl
  invokedMethod _ := rfl
  firstArgType _ := rfl
  declaredTargets _ := rfl

/-- Whether two classes differ at most in the bodies and loops of library methods. -/
structure ClassDecl.Resembles (c d : ClassDecl) : Prop where
  bare : d.bare = c.bare
  methods : List.Forall₂ (Procedure.Resembles config) c.methods d.methods

/-- Whether two edges are the same, up to the bodies and loops of library procedures at their
    ends. -/
structure CallEdge.Resembles (e f : CallEdge) : Prop where
  source : e.source.Resembles config f.source
  target : e.target.Resembles config f.target
  site : e.site = f.site
  index : e.index = f.index
  kind : e.kind = f.kind

variable {config}

theorem ClassDecl.resembles_iff {c d : ClassDecl} :
    c.Resembles config d ↔ c.through (.mask config) = d.through (.mask config) := by
  have sameMethods {methods others : List Procedure} :
      List.Forall₂ (Procedure.Resembles config) methods others ↔
        methods.map (·.through (.mask config)) = others.map (·.through (.mask config)) :=
    map_eq_map_iff (R := Procedure.Resembles config) fun _ _ => Procedure.resembles_iff
  constructor
  · rintro ⟨bare, methods⟩
    obtain ⟨name, superclass, interfaces, mark⟩ := bare_eq_iff.mp bare
    rw [sameMethods] at methods
    simp [through, name, superclass, interfaces, mark, methods]
  · intro same
    simp only [through, mk.injEq] at same
    obtain ⟨name, superclass, interfaces, mark, methods⟩ := same
    exact ⟨bare_eq_iff.mpr ⟨name.symm, superclass.symm, interfaces.symm, mark.symm⟩,
      sameMethods.mpr methods⟩

theorem CallEdge.resembles_iff {e f : CallEdge} :
    e.Resembles config f ↔ e.through (.mask config) = f.through (.mask config) := by
  have sameEnd {p q : Procedure} :
      p.through (.mask config) = q.through (.mask config) ↔ p.Resembles config q :=
    Procedure.resembles_iff.symm
  simp only [through, mk.injEq, sameEnd]
  constructor
  · rintro ⟨source, target, site, index, kind⟩
    exact ⟨source, site, index, target, kind⟩
  · rintro ⟨source, site, index, target, kind⟩
    exact ⟨source, target, site, index, kind⟩

/-- Programs of classes that resemble each other have the same mask. -/
theorem Program.mask_eq_of_resembles {classes others : List ClassDecl}
    {first second : Program} (loaded : ofClasses config classes = .ok first)
    (loadedOther : ofClasses config others = .ok second)
    (alike : List.Forall₂ (ClassDecl.Resembles config) classes others) :
    first.through (.mask config) = second.through (.mask config) :=
  through_eq_of_classes loaded loadedOther
    ((map_eq_map_iff (R := ClassDecl.Resembles config) fun _ _ => ClassDecl.resembles_iff).mp alike)

namespace Analysis

variable (config) in
/-- Whether two analyses have the same results. Their edges may end at library procedures that differ
    in their bodies. -/
structure Resembles (a b : Analysis) : Prop where
  edges : List.Forall₂ (CallEdge.Resembles config) a.graph.edges b.graph.edges
  synthetic : List.Forall₂ (CallEdge.Resembles config) a.synthetic b.synthetic
  cycles : a.cycles = b.cycles
  store : a.store = b.store
  issues : a.issues = b.issues
  ranking : ∀ top, a.ranking top = b.ranking top

theorem resembles_of_mask {a b : Analysis}
    (same : a.through (.mask config) = b.through (.mask config)) : a.Resembles config b := by
  simp only [through, mk.injEq, CallGraph.through, CallGraph.mk.injEq] at same
  obtain ⟨store, ⟨-, edges, -⟩, issues, synthetic, cycles⟩ := same
  have alike {listed others : List CallEdge}
      (same : listed.map (·.through (.mask config)) = others.map (·.through (.mask config))) :
      List.Forall₂ (CallEdge.Resembles config) listed others :=
    (map_eq_map_iff (R := CallEdge.Resembles config) fun _ _ => CallEdge.resembles_iff).mpr same
  exact ⟨alike edges, alike synthetic, cycles, store, issues, fun top => by
    simp only [ranking, store]⟩

/-- Two programs under the same configuration whose classes differ only in the bodies and loops of
    library methods have the same analyses: either both fail with the same fault, or both return the
    same edges, recursive sets, costs, issues and rankings. The same questions may fail in both. -/
theorem library_bodies_have_no_influence {config : Config} {classes others : List ClassDecl}
    (made : ∀ c ∈ classes, ∃ shell methods, ClassDecl.make shell methods = .ok c)
    (madeOther : ∀ c ∈ others, ∃ shell methods, ClassDecl.make shell methods = .ok c)
    (alike : List.Forall₂ (ClassDecl.Resembles config) classes others) {first second : Program}
    (loaded : Program.ofClasses config classes = .ok first)
    (loadedOther : Program.ofClasses config others = .ok second) (failures : List QueryFailure) :
    match ofProgram { program := first, failures }, ofProgram { program := second, failures } with
    | .ok a after, .ok b after' => a.Resembles config b ∧ after.log = after'.log
    | .error fault _, .error fault' _ => fault = fault'
    | _, _ => False := by
  have agree := endAlike_ofProgram (Program.settled_of_classes made loaded)
    (Program.settled_of_classes madeOther loadedOther)
    (Program.mask_eq_of_resembles loaded loadedOther alike) failures
  generalize ofProgram { program := first, failures } = result at agree ⊢
  generalize ofProgram { program := second, failures } = other at agree ⊢
  cases agree with
  | ok same sameLog => exact ⟨resembles_of_mask same, sameLog⟩
  | error sameLog => rfl

/-- Calls library code in a loop. -/
def flushingMain : Procedure where
  declaringClass := .text "app.Main"
  subsignature := .text "void main()"
  body := some [{ kind := .invoke, method := some (.text "<java.io.Console: void flush()>") }]
  loops := { loops := [.ofMembers 0 []] }

/-- An application that calls a library method. -/
def flushingClasses (flush : Procedure) : List ClassDecl := [
  { name := .text "app.Main", methods := [flushingMain] },
  { name := .text "java.io.Console", methods := [flush] }]

/-- A library method that is only declared. -/
def nativeFlush : Procedure where
  declaringClass := .text "java.io.Console"
  subsignature := .text "void flush()"

/-- The same method with a body that calls the application back. -/
def loopingFlush : Procedure :=
  { nativeFlush with
    body := some [{ kind := .invoke, method := some (.text "<app.Main: void main()>") }]
    loops := { loops := [.ofMembers 0 []] } }

/-- A library method that calls back in a loop costs as much as a native one: nothing. -/
theorem library_bodies_have_no_influence_of_flush :
    ∃ first second a b after after',
      Program.ofClasses {} (flushingClasses loopingFlush) = .ok first ∧
      Program.ofClasses {} (flushingClasses nativeFlush) = .ok second ∧
      ofProgram { program := first } = .ok a after ∧
      ofProgram { program := second } = .ok b after' ∧
      a.Resembles {} b ∧ a.cycles = [] ∧
      (a.store.propagated.get? flushingMain.signature).map CostRecord.approx = some 10 := by
  obtain ⟨first, second, a, b, after, after', loaded, loadedOther, returned, returnedOther, acyclic,
      cost⟩ : ∃ first second a b after after',
      Program.ofClasses {} (flushingClasses loopingFlush) = .ok first ∧
      Program.ofClasses {} (flushingClasses nativeFlush) = .ok second ∧
      ofProgram { program := first } = .ok a after ∧
      ofProgram { program := second } = .ok b after' ∧ a.cycles = [] ∧
      (a.store.propagated.get? flushingMain.signature).map CostRecord.approx = some 10 :=
    ⟨_, _, _, _, _, _, by cbv, by cbv, by cbv, by cbv, by cbv, by cbv⟩
  have made {flush : Procedure} (isFlush : flush = loopingFlush ∨ flush = nativeFlush) :
      ∀ c ∈ flushingClasses flush, ∃ shell methods, ClassDecl.make shell methods = .ok c := by
    intro c isClass
    refine ⟨c, c.methods, ?_⟩
    rcases isFlush with rfl | rfl <;> fin_cases isClass <;> cbv
  have alike : List.Forall₂ (ClassDecl.Resembles {}) (flushingClasses loopingFlush)
      (flushingClasses nativeFlush) :=
    .cons ⟨rfl, .cons (.inl rfl) .nil⟩
      (.cons ⟨rfl, .cons (.inr ⟨rfl, rfl, by decide⟩) .nil⟩ .nil)
  have same := library_bodies_have_no_influence (made (.inl rfl)) (made (.inr rfl)) alike loaded
    loadedOther []
  rw [returned, returnedOther] at same
  exact ⟨first, second, a, b, after, after', loaded, loadedOther, returned, returnedOther, same.1,
    acyclic, cost⟩

end Analysis

end CallWeight
