import CallWeight.Proofs.AnalysisContents
import CallWeight.Proofs.PropagationEvents

/-! # Prefixes that end with a dot

A class is library code if its package starts with a library prefix, and the package of a class has no
dot at its end. So a prefix that ends with a dot excludes the subpackages of a package, but not the
classes that lie directly in it; these are excluded only if another prefix starts their package.

What is excluded leaves no trace in the local and the propagated costs, whatever the program looks like
and whichever questions fail: records are only kept for procedures that were found to be application
code.
-/

namespace CallWeight

/-! ## Packages -/

namespace Text

theorem splitLast_append (separator : CodePoint) (a b : Text) :
    splitLast separator (a ++ b) =
      match splitLast separator b with
      | some (before, after) => some (a ++ before, after)
      | none => (splitLast separator a).map fun (before, after) => (before, after ++ b) := by
  induction a with
  | nil => cases found : splitLast separator b <;> simp [splitLast, found]
  | cons c rest ih =>
      simp only [List.cons_append, splitLast, ih]
      cases splitLast separator b with
      | some parts => rfl
      | none =>
          cases splitLast separator rest with
          | some parts => rfl
          | none =>
              by_cases isHere : c = separator
              · simp [isHere]
              · simp [isHere]

theorem splitLast_eq_none {separator : CodePoint} {text : Text} :
    splitLast separator text = none ↔ separator ∉ text := by
  induction text with
  | nil => simp [splitLast]
  | cons c rest ih =>
      unfold splitLast
      cases found : splitLast separator rest with
      | some parts =>
          have inRest : separator ∈ rest := by
            by_contra absent
            cases found.symm.trans (ih.mpr absent)
          simp [inRest]
      | none =>
          by_cases isHere : c = separator
          · simp [isHere]
          · simp [isHere, Ne.symm isHere, ih.mp found]

end Text

/-- A class with no further dot in its name lies in the package itself. -/
theorem packageOf_of_notMem (package : Text) {rest : Text} (direct : .char '.' ∉ rest) :
    packageOf (package ++ "." ++ rest) = package := by
  have dot : Text.splitLast (.char '.') (Text.ofString ".") = some ([], []) := by decide
  simp only [packageOf, Text.splitLast_append, Text.splitLast_eq_none.mpr direct, dot]
  simp

/-- Otherwise its package starts with the name of the package and a dot. -/
theorem prefix_packageOf (package : Text) {rest : Text} (nested : .char '.' ∈ rest) :
    (package ++ "." : Text) <+: packageOf (package ++ "." ++ rest) := by
  cases found : Text.splitLast (.char '.') rest with
  | none => exact absurd nested (Text.splitLast_eq_none.mp found)
  | some parts =>
      simp only [packageOf, Text.splitLast_append, found]
      exact List.prefix_append _ _

namespace Config

theorem isLibraryClass_iff {config : Config} {name : Text} :
    config.isLibraryClass name = true ↔ ∃ start ∈ config.libraryPrefixes, start <+: packageOf name := by
  simp only [isLibraryClass, List.any_eq_true, List.isPrefixOf_iff_prefix]

variable {config : Config} {package : Text} (listed : package ++ "." ∈ config.libraryPrefixes)

include listed

/-- Which of the classes that start with a dotted prefix are library code. -/
theorem isLibraryClass_dotted_iff (rest : Text) :
    config.isLibraryClass (package ++ "." ++ rest) = true ↔
      .char '.' ∈ rest ∨ ∃ start ∈ config.libraryPrefixes, start <+: package := by
  rw [isLibraryClass_iff]
  by_cases nested : .char '.' ∈ rest
  · exact iff_of_true ⟨_, listed, prefix_packageOf package nested⟩ (.inl nested)
  · rw [packageOf_of_notMem package nested]
    simp [nested]

/-- A longer name is excluded, too. -/
theorem isLibraryClass_dotted_append {rest : Text}
    (isLibrary : config.isLibraryClass (package ++ "." ++ rest) = true) (more : Text) :
    config.isLibraryClass (package ++ "." ++ rest ++ more) = true := by
  rw [isLibraryClass_dotted_iff listed] at isLibrary
  rw [List.append_assoc, isLibraryClass_dotted_iff listed]
  exact isLibrary.imp_left (List.mem_append_left _)

end Config

/-! ## Signatures -/

/-- A class name without a colon and a blank starts every class name that makes up the same
    signature. -/
theorem Signature.prefix_of_make_eq {name other subsignature subsignature' : Text}
    (plain : Text.occursIn ": " name = false)
    (same : make name subsignature = make other subsignature') : name <+: other := by
  have noSeparator : ¬ (": " : Text) <:+: name := by
    rw [← Text.occursIn_iff_infix, plain]
    exact Bool.false_ne_true
  have whole : name ++ ": " ++ subsignature = other ++ ": " ++ subsignature' := by
    have sameInside := congrArg inside? same
    rwa [inside?_make, inside?_make, Option.some.injEq] at sameInside
  exact Text.prefix_of_splitFirst (splitFirst_make_iff.mpr noSeparator) whole

/-! ## Records are kept for application code only -/

namespace Costs

/-- Whether a local or a propagated record is kept under a signature. -/
def Keeps (costs : Costs) (signature : Text) : Prop :=
  (costs.store.locals.get? signature).isSome ∨ (costs.store.propagated.get? signature).isSome

/-- Whether what happened between two states added records for one signature at most. -/
structure Concerns (signature : Text) (before after : Costs) : Prop where
  program : before.inspection.program.Alike after.inspection.program
  keeps : ∀ {other}, after.Keeps other → before.Keeps other ∨ other = signature

namespace Concerns

variable {signature : Text} {first second third : Costs}

theorem trans (early : Concerns signature first second) (late : Concerns signature second third) :
    Concerns signature first third where
  program := early.program.trans late.program
  keeps kept := (late.keeps kept).elim early.keeps .inr

/-- External records are no concern. -/
theorem of_eq (program : first.inspection.program.Alike second.inspection.program)
    (locals : second.store.locals = first.store.locals)
    (propagated : second.store.propagated = first.store.propagated) :
    Concerns signature first second where
  program
  keeps kept := .inl (by simpa only [Keeps, locals, propagated] using kept)

theorem putLocal (costs : Costs) (signature : Text) (r : CostRecord) :
    Concerns signature costs { costs with store := costs.store.putLocal signature r } where
  program := .refl _
  keeps {other} kept := by
    simp only [Keeps, CostStore.putLocal, OrderedMap.get?_insert] at kept ⊢
    split at kept
    · exact .inr (Eq.symm (by assumption))
    · exact .inl kept

theorem put (costs : Costs) (signature : Text) (r : CostRecord) :
    Concerns signature costs { costs with store := costs.store.put signature r } where
  program := .refl _
  keeps {other} kept := by
    simp only [Keeps, CostStore.put, OrderedMap.get?_insert] at kept ⊢
    split at kept
    · exact .inr (Eq.symm (by assumption))
    · exact .inl kept

end Concerns

end Costs

namespace Costing

open Costs

/-- Whether a computation adds records for one signature at most, with or without a result. -/
def Concerns {α : Type} (signature : Text) (x : Costing α) : Prop :=
  ∀ costs, Costs.Concerns signature costs (stateAfter x costs)

section Concerns

variable {α β : Type} {signature : Text}

theorem Concerns.bind {x : Costing α} {f : α → Costing β} (first : x.Concerns signature)
    (second : ∀ a, (f a).Concerns signature) : Costing.Concerns signature (x >>= f) := by
  intro costs
  have early := first costs
  unfold stateAfter at early ⊢
  cases result : x costs with
  | ok a middle =>
      rw [result] at early
      rw [bind_of_ok result]
      exact early.trans (second a middle)
  | error fault middle =>
      rw [result] at early
      rw [bind_of_error result]
      exact early

theorem concerns_pure (a : α) : Costing.Concerns signature (pure a) := fun _ => .of_eq (.refl _) rfl rfl

theorem concerns_get : Costing.Concerns signature get := fun _ => .of_eq (.refl _) rfl rfl

theorem concerns_inspect {x : Inspecting α} (neutral : x.Neutral) :
    Costing.Concerns signature (inspect x) := by
  intro costs
  have alike := neutral costs.inspection
  unfold Inspecting.attempt at alike
  unfold stateAfter inspect
  cases result : x costs.inspection with
  | ok a i =>
      rw [result] at alike
      exact .of_eq alike.program rfl rfl
  | error fault i =>
      rw [result] at alike
      exact .of_eq alike.program rfl rfl

theorem ok_of_inspect {x : Inspecting α} {before after : Costs} {a : α}
    (returned : inspect x before = .ok a after) :
    ∃ i, x before.inspection = .ok a i ∧ after = { before with inspection := i } := by
  unfold inspect at returned
  cases result : x before.inspection with
  | ok b i =>
      rw [result] at returned
      cases returned
      exact ⟨i, rfl, rfl⟩
  | error fault i =>
      rw [result] at returned
      cases returned

theorem concerns_cost (p : Procedure) : (cost p).Concerns signature := by
  refine (concerns_inspect (Inspecting.quiet_ask _).neutral).bind fun _ =>
    concerns_get.bind fun costs => ?_
  cases costs.store.best? p.signature with
  | some r => exact concerns_pure _
  | none =>
      refine (concerns_inspect (CostRecord.recalling_extract p).neutral).bind fun r => ?_
      refine Concerns.bind (fun _ => .of_eq (.refl _) rfl rfl) fun _ => ?_
      exact (concerns_inspect (Inspecting.recalling_debug _ _).neutral).bind fun _ => concerns_pure _

theorem concerns_localCost (p : Procedure) : (localCost p).Concerns p.signature := by
  refine concerns_get.bind fun costs => ?_
  simp only
  cases (costs.store.locals.get? p.signature).or (costs.store.external.get? p.signature) with
  | some r => exact concerns_pure _
  | none =>
      refine (concerns_inspect (CostRecord.recalling_extract p).neutral).bind fun r => ?_
      exact Concerns.bind (fun costs => .putLocal costs _ r) fun _ => concerns_pure _

end Concerns

end Costing

namespace Propagation

open Costing

variable {g : CallGraph}

theorem concerns_begin (g : CallGraph) (p : Procedure) : (begin g p).Concerns p.signature := by
  refine (concerns_inspect (Inspecting.quiet_ask _).neutral).bind fun body => ?_
  cases body with
  | none =>
      refine Concerns.bind (fun costs => .put costs _ _) fun _ => ?_
      exact (concerns_inspect (Inspecting.recalling_debug _ _).neutral).bind fun _ => concerns_pure _
  | some body =>
      refine (concerns_localCost p).bind fun start => ?_
      refine Concerns.bind (fun costs => .put costs _ _) fun _ => ?_
      exact (concerns_inspect (Inspecting.recalling_depthMap p).neutral).bind fun _ => concerns_pure _

theorem concerns_enter (p : Procedure) (costs : Costs) :
    costs.Concerns p.signature (enter (g := g) p costs).1 := by
  have begins := concerns_begin g p costs
  unfold stateAfter at begins
  unfold enter
  cases result : begin g p costs with
  | ok calls after =>
      rw [result] at begins
      exact begins
  | error fault after =>
      rw [result] at begins
      exact begins.trans (.of_eq (.refl _) rfl rfl)

theorem concerns_foldCall (p : Procedure) (call : PendingCall g) (costs : Costs) :
    Costs.Concerns p.signature costs (foldCall p call costs) := by
  have priced : Costs.Concerns p.signature costs (stateAfter (Costing.cost call.target) costs) :=
    concerns_cost call.target costs
  unfold stateAfter at priced
  unfold foldCall
  cases result : Costing.cost call.target costs with
  | error fault after =>
      rw [result] at priced
      exact priced.trans (.of_eq (.refl _) rfl rfl)
  | ok callee after =>
      rw [result] at priced
      exact priced.trans ((Costs.Concerns.put after _ _).trans (.of_eq (.refl _) rfl rfl))

end Propagation

/-- Whether local and propagated records are kept for application code only. -/
structure Costs.Guarded (config : Config) (costs : Costs) : Prop where
  configured : costs.inspection.program.config = config
  owned : ∀ c ∈ costs.inspection.program.classes.values, c.OwnsMethods
  keeps : ∀ {signature}, costs.Keeps signature → ∃ p : Procedure, p.signature = signature ∧
    config.isApplicationClass p.declaringClass = true

namespace Costs.Guarded

variable {config : Config} {before after : Costs} (guarded : before.Guarded config)

include guarded

theorem concerns {p : Procedure} (accepted : config.isApplicationClass p.declaringClass = true)
    (concerns : Costs.Concerns p.signature before after) : after.Guarded config where
  configured := concerns.program.config.trans guarded.configured
  owned := by
    rw [concerns.program.classes]
    exact guarded.owned
  keeps kept := by
    rcases concerns.keeps kept with old | rfl
    · exact guarded.keeps old
    · exact ⟨p, rfl, accepted⟩

theorem accepted {p : Procedure} (answered : before.inspection.isApplication p = .ok true) :
    config.isApplicationClass p.declaringClass = true :=
  guarded.configured ▸ Inspection.accepted_of_isApplication answered

theorem extractFrom {count n : Nat} {procedures : List Procedure}
    (extracted : Costing.extractFrom count procedures before = .ok n after) :
    after.Guarded config := by
  induction procedures generalizing count before with
  | nil =>
      cases extracted
      exact guarded
  | cons p rest ih =>
      obtain ⟨answer, middle, inspected, others⟩ := ok_of_bind extracted
      obtain ⟨i, asked, rfl⟩ := Costing.ok_of_inspect inspected
      obtain ⟨rfl, answered⟩ := Inspecting.ok_of_ask asked
      cases answer with
      | false => exact ih guarded others
      | true =>
          have accepted := guarded.accepted answered
          obtain ⟨r, counted, extractedOne, others⟩ := ok_of_bind others
          obtain ⟨done, filed, isFiled, others⟩ := ok_of_bind others
          have concerns : Costs.Concerns p.signature before
              (stateAfter (Costing.inspect (CostRecord.extract p)) before) :=
            Costing.concerns_inspect (CostRecord.recalling_extract p).neutral before
          rw [stateAfter, extractedOne] at concerns
          cases isFiled
          exact ih (guarded.concerns accepted (concerns.trans (.putLocal counted _ r))) others

theorem extractAll {n : Nat} {procedures : List Procedure}
    (extracted : Costing.extractAll procedures before = .ok n after) : after.Guarded config := by
  obtain ⟨count, listed, extractedFrom, logged⟩ := ok_of_bind extracted
  have isListed := guarded.extractFrom extractedFrom
  cases logged
  exact { isListed with }

end Costs.Guarded

namespace Propagation

variable {g : CallGraph} {config : Config}

/-- Whether a propagation works on application code only, and keeps records for nothing else. -/
structure Guarded (config : Config) (s : Propagation g) : Prop where
  costs : s.costs.Guarded config
  frames : ∀ frame ∈ s.stack, config.isApplicationClass frame.procedure.declaringClass = true

theorem Guarded.enter {s : Propagation g} (guarded : s.Guarded config) {p : Procedure}
    (accepted : config.isApplicationClass p.declaringClass = true) (resolved : List Text) :
    Guarded config {
      costs := (Propagation.enter (g := g) p s.costs).1
      resolved
      stack := (Propagation.enter p s.costs).2 ++ s.stack } where
  costs := guarded.costs.concerns accepted (concerns_enter p s.costs)
  frames frame inStack := by
    rcases List.mem_append.mp inStack with isNew | old
    · rcases enter_happens g p s.costs with ⟨calls, after, entered, -⟩ | ⟨fault, after, entered, -⟩
      · rw [entered] at isNew
        exact List.mem_singleton.mp isNew ▸ accepted
      · rw [entered] at isNew
        cases isNew
    · exact guarded.frames frame old

/-- The frame on top is done with a call. -/
theorem Guarded.handle {s : Propagation g} (guarded : s.Guarded config) {p : Procedure}
    {call : PendingCall g} {pending : List (PendingCall g)} {rest : List (Frame g)}
    (onTop : s.stack = { procedure := p, pending := call :: pending } :: rest) {after : Costs}
    (concerns : Costs.Concerns p.signature s.costs after) :
    Guarded config { s with costs := after, stack := { procedure := p, pending } :: rest } := by
  obtain ⟨accepted, others⟩ := List.forall_mem_cons.mp (onTop ▸ guarded.frames)
  exact ⟨guarded.costs.concerns accepted concerns, List.forall_mem_cons.mpr ⟨accepted, others⟩⟩

theorem Guarded.drain {s : Propagation g} (guarded : s.Guarded config) :
    s.drain.Guarded config := by
  fun_induction Propagation.drain s with
  | case1 s idle => exact guarded
  | case2 s p rest onTop ih =>
      exact ih ⟨guarded.costs, (List.forall_mem_cons.mp (onTop ▸ guarded.frames)).2⟩
  | case3 s p call pending rest onTop target done isResolved ih =>
      exact ih (guarded.handle onTop (concerns_foldCall p call s.costs))
  | case4 s p call pending rest onTop target done isNew fault unclear ih =>
      exact ih (guarded.handle onTop (.of_eq (.refl _) rfl rfl))
  | case5 s p call pending rest onTop target done isNew isLibrary ih =>
      exact ih (guarded.handle onTop (concerns_foldCall p call s.costs))
  | case6 s p call pending rest onTop target isNew isApplication costs frames entered ih =>
      have next := guarded.enter (guarded.costs.accepted isApplication) (target :: s.resolved)
      rw [onTop, entered] at next
      exact ih next

theorem Guarded.visitAll {s : Propagation g} (guarded : s.Guarded config) {roots : List Procedure}
    (accepted : ∀ p ∈ roots, config.isApplicationClass p.declaringClass = true) :
    (roots.foldl Propagation.visit s).Guarded config := by
  induction roots generalizing s with
  | nil => exact guarded
  | cons p rest ih =>
      obtain ⟨first, others⟩ := List.forall_mem_cons.mp accepted
      refine ih ?_ others
      unfold Propagation.visit
      split
      · exact guarded
      · exact (guarded.enter first _).drain

theorem guarded_run (g : CallGraph) {counted : Costs} (guarded : counted.Guarded config) :
    (run g counted).costs.Guarded config := by
  let begun : Costs :=
    noting (·.info .propagation "Propagating invocations through the call graph") counted
  have start : Guarded (g := g) config { costs := begun } := ⟨{ guarded with }, by simp⟩
  have accepted : ∀ p ∈ begun.inspection.program.applicationProcedures,
      config.isApplicationClass p.declaringClass = true := fun p listed =>
    guarded.configured ▸ Program.accepted_of_listed guarded.owned listed
  exact { (start.visitAll accepted).costs with }

end Propagation

namespace Analysis

theorem augmented_alike {rules : List DispatchRule} {g g' : CallGraph} {synthetic : List CallEdge}
    {i j : Inspection} (returned : augment rules g i = .ok (g', synthetic) j) : i.Alike j := by
  obtain ⟨g'', synthetic', j', augmented, alike⟩ := augment_alike rules g i
  cases augmented.symm.trans returned
  exact alike

/-- An analysis keeps local and propagated records for application code only. -/
theorem exists_accepted {i after : Inspection} {a : Analysis}
    (owned : ∀ c ∈ i.program.classes.values, c.OwnsMethods)
    (returned : ofProgram i = .ok a after) {signature : Text}
    (kept : (a.store.locals.get? signature).isSome ∨
      (a.store.propagated.get? signature).isSome) :
    ∃ p : Procedure, p.signature = signature ∧
      i.program.config.isApplicationClass p.declaringClass = true := by
  obtain ⟨g, built, warned, augmented, priced, stages⟩ := exists_stages returned
  have alike := (stages.alike.1.trans (augmented_alike stages.augments)).program
  have prices := stages.prices
  let told := augmented.info .analysis "Counting how many calls each procedure does"
  have tells : Inspecting.info .analysis "Counting how many calls each procedure does" augmented =
      .ok () told := rfl
  have started : (get : Inspecting Inspection) told = .ok told told := rfl
  have start : Costs.Guarded i.program.config { inspection := told } :=
    { configured := alike.config
      owned := fun c isClass => owned c (alike.classes ▸ isClass)
      keeps := fun kept => by simp [Costs.Keeps] at kept }
  unfold costs at prices
  rw [bind_of_ok tells, bind_of_ok started] at prices
  cases extracted : Costing.extractAll told.program.applicationProcedures { inspection := told } with
  | error fault failed =>
      simp only [extracted] at prices
      cases prices
  | ok count counted =>
      simp only [extracted] at prices
      let final := (Propagation.run a.graph counted).costs
      have done : EStateM.Result.ok final.store final.inspection = .ok a.store priced := prices
      obtain ⟨isStore, -⟩ := EStateM.Result.ok.inj done
      have guarded := Propagation.guarded_run a.graph (start.extractAll extracted)
      exact guarded.keeps (by rwa [← isStore] at kept)

/-- A class whose name starts with a library prefix that ends with a dot is library code if it lies in a
    subpackage, and if it lies in the package itself then only if a prefix starts that package. If it is
    library code, none of its methods is an application procedure, and no local or propagated record is
    kept for them. Records go by signatures, and a class name with a colon and a blank in it may share
    its signatures with application code. -/
theorem dotted_prefix_excludes_subpackages {config : Config} {classes : List ClassDecl}
    {i : Inspection} (made : ∀ c ∈ classes, ∃ shell methods, ClassDecl.make shell methods = .ok c)
    (loaded : Program.ofClasses config classes = .ok i.program) (package rest : Text)
    (listed : package ++ "." ∈ config.libraryPrefixes) {c : ClassDecl} (isClass : c ∈ classes)
    (named : c.name = .text (package ++ "." ++ rest)) :
    (config.isLibraryClass (package ++ "." ++ rest) = true ↔
      .char '.' ∈ rest ∨ ∃ start ∈ config.libraryPrefixes, start <+: package) ∧
    (config.isLibraryClass (package ++ "." ++ rest) = true → ∀ m ∈ c.methods,
      m ∉ i.program.applicationProcedures ∧
      (Text.occursIn ": " (package ++ "." ++ rest) = false →
        ∀ a after, ofProgram i = .ok a after →
          a.store.locals.get? m.signature = none ∧
          a.store.propagated.get? m.signature = none)) := by
  refine ⟨config.isLibraryClass_dotted_iff listed rest, fun isLibrary m isMethod => ?_⟩
  obtain ⟨sameConfig, -, values, -⟩ := Program.addClasses_fields loaded
  have sameConfig : i.program.config = config := sameConfig
  have values : i.program.classes.values = classes := values
  have owned : ∀ d ∈ i.program.classes.values, d.OwnsMethods := by
    intro d isDeclared
    obtain ⟨shell, methods, makes⟩ := made d (values ▸ isDeclared)
    exact ClassDecl.ownsMethods_of_make makes
  have owns : m.declaringClass = .text (package ++ "." ++ rest) :=
    Atom.eq_of_equals_text (named ▸ owned c (values ▸ isClass) m isMethod)
  refine ⟨fun isApplication => ?_, fun plain a after returned => ?_⟩
  · have accepted := Program.accepted_of_listed owned isApplication
    rw [owns, sameConfig, Config.isApplicationClass, isLibrary] at accepted
    cases accepted
  · suffices unkept : ¬ ((a.store.locals.get? m.signature).isSome ∨
        (a.store.propagated.get? m.signature).isSome) by
      simpa [not_or] using unkept
    intro kept
    obtain ⟨p, same, accepted⟩ := exists_accepted owned returned kept
    rw [sameConfig] at accepted
    obtain ⟨other, isName, isOwn⟩ := Config.isApplicationClass_iff.mp accepted
    unfold Procedure.signature at same
    rw [owns, isName] at same
    -- Another class of the same signature has a longer name, so it is excluded as well.
    obtain ⟨more, rfl⟩ := Signature.prefix_of_make_eq plain same.symm
    rw [Config.isLibraryClass_dotted_append listed isLibrary] at isOwn
    cases isOwn

/-- A class with one method, which calls nothing. -/
def idleClass (name : Text) : ClassDecl where
  name := .text name
  methods := [{ declaringClass := .text name, subsignature := .text "void f()", body := some [] }]

/-- A class of a subpackage is excluded, and the class beside it is counted. -/
theorem dotted_prefix_excludes_subpackages_of_socket :
    ∃ program a after,
      Program.ofClasses { libraryPrefixes := ["com.vendor."] }
        [idleClass "com.vendor.net.Socket", idleClass "app.Main"] = .ok program ∧
      ofProgram { program } = .ok a after ∧
      a.store.locals.keys = [("<app.Main: void f()>" : Text)] ∧
      a.store.locals.get? "<com.vendor.net.Socket: void f()>" = none ∧
      a.store.propagated.get? "<com.vendor.net.Socket: void f()>" = none := by
  obtain ⟨program, a, after, loaded, returned, keys⟩ : ∃ program a after,
      Program.ofClasses { libraryPrefixes := ["com.vendor."] }
        [idleClass "com.vendor.net.Socket", idleClass "app.Main"] = .ok program ∧
      ofProgram { program } = .ok a after ∧
      a.store.locals.keys = [("<app.Main: void f()>" : Text)] :=
    ⟨_, _, _, by cbv, by cbv, by cbv⟩
  have made : ∀ c ∈ [idleClass "com.vendor.net.Socket", idleClass "app.Main"],
      ∃ shell methods, ClassDecl.make shell methods = .ok c := by
    intro c isClass
    refine ⟨c, c.methods, ?_⟩
    fin_cases isClass <;> cbv
  have excluded := (dotted_prefix_excludes_subpackages made (i := { program }) loaded "com.vendor"
    "net.Socket" (by decide) List.mem_cons_self rfl).2 (by decide) _ List.mem_cons_self
  exact ⟨program, a, after, loaded, returned, keys, excluded.2 (by decide) a after returned⟩

/-- A class that lies directly in the package of a dotted prefix is no library code, so its methods are
    counted. -/
theorem direct_class_of_dotted_prefix_is_counted :
    ∃ program a after,
      Program.ofClasses { libraryPrefixes := ["com.vendor."] } [idleClass "com.vendor.Lib"] =
        .ok program ∧
      program.config.isLibraryClass "com.vendor.Lib" = false ∧
      ofProgram { program } = .ok a after ∧
      a.store.locals.keys = [("<com.vendor.Lib: void f()>" : Text)] ∧
      a.store.propagated.keys = [("<com.vendor.Lib: void f()>" : Text)] :=
  ⟨_, _, _, by cbv, by cbv, by cbv, by cbv, by cbv⟩

end Analysis

end CallWeight
