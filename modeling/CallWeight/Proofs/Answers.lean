import CallWeight.Dispatch.Augmentation
import CallWeight.Proofs.Inspections

/-! # Answers that do not depend on what was asked before

A program that is asked for signatures gets to know phantoms. This changes its table but none of its
answers: two states of a program are alike if they agree on the configuration, on the classes and on
the procedure of every signature. A computation is steady if it leaves the program alike, records no
issue, and returns what it returns also where fewer questions fail. Everything that the dispatch rules
look at is steady, so what they say about a call site does not depend on when they are asked.
-/

namespace CallWeight

namespace Program

structure Alike (first second : Program) : Prop where
  config : second.config = first.config
  classes : second.classes = first.classes
  procedure : ∀ signature,
    (second.procedure signature).map Prod.fst = (first.procedure signature).map Prod.fst

namespace Alike

variable {first second third : Program}

theorem refl (program : Program) : program.Alike program := ⟨rfl, rfl, fun _ => rfl⟩

theorem symm (alike : first.Alike second) : second.Alike first :=
  ⟨alike.config.symm, alike.classes.symm, fun signature => (alike.procedure signature).symm⟩

theorem trans (early : first.Alike second) (late : second.Alike third) : first.Alike third where
  config := late.config.trans early.config
  classes := late.classes.trans early.classes
  procedure signature := (late.procedure signature).trans (early.procedure signature)

theorem applicationClasses (alike : first.Alike second) :
    second.applicationClasses = first.applicationClasses := by
  simp only [Program.applicationClasses, alike.config, alike.classes]

theorem applicationProcedures (alike : first.Alike second) :
    second.applicationProcedures = first.applicationProcedures := by
  simp only [Program.applicationProcedures, alike.applicationClasses]

theorem named (alike : first.Alike second) (named : first.Named) : second.Named := by
  unfold Named
  rw [alike.classes]
  exact named

theorem exists_procedure (alike : first.Alike second) {signature : Text} {p : Procedure}
    {after : Program} (found : first.procedure signature = .ok (p, after)) :
    ∃ after, second.procedure signature = .ok (p, after) := by
  have same := alike.procedure signature
  rw [found] at same
  cases answer : second.procedure signature with
  | error fault => simp [answer, Except.map] at same
  | ok result =>
      obtain ⟨q, after⟩ := result
      simp only [answer, Except.map, Except.ok.injEq] at same
      exact ⟨after, by rw [same]⟩

end Alike

/-- Only the table decides which procedure a signature names. -/
theorem map_fst_procedure (program : Program) (signature : Text) :
    (program.procedure signature).map Prod.fst =
      match program.procedures.get? signature with
      | some p => .ok p
      | none => Procedure.phantom signature := by
  unfold procedure
  cases program.procedures.get? signature with
  | some p => rfl
  | none => cases Procedure.phantom signature <;> rfl

/-- A new phantom is what the program would have answered anyway. -/
theorem alike_of_procedure {before after : Program} {signature : Text} {p : Procedure}
    (found : before.procedure signature = .ok (p, after)) : before.Alike after := by
  unfold procedure at found
  cases held : before.procedures.get? signature with
  | some q =>
      simp only [held, Except.ok.injEq, Prod.mk.injEq] at found
      exact found.2 ▸ .refl _
  | none =>
      cases made : Procedure.phantom signature with
      | error fault => simp [held, made, bind, Except.bind] at found
      | ok q =>
          simp only [held, made, bind, Except.bind, pure, Except.pure, Except.ok.injEq,
            Prod.mk.injEq] at found
          obtain ⟨-, rfl⟩ := found
          refine ⟨rfl, rfl, fun other => ?_⟩
          simp only [map_fst_procedure, OrderedMap.get?_insert]
          by_cases same : signature = other
          · subst same
            simp [held, made]
          · simp [same]

theorem alike_depthMap (program : Program) (p : Procedure) :
    program.Alike (program.depthMap p).2 := by
  unfold depthMap
  split
  · exact .refl _
  · exact ⟨rfl, rfl, fun signature => by simp only [map_fst_procedure]⟩

/-- A depth map that was computed once stays. -/
theorem depthCache_depthMap (program : Program) (p : Procedure) {signature : Text}
    {depths : DepthMap} (found : program.depthCache.get? signature = some depths) :
    (program.depthMap p).2.depthCache.get? signature = some depths := by
  unfold depthMap
  split
  · exact found
  · rename_i isNew
    have other : p.signature ≠ signature := fun same => by simp [same, found] at isNew
    simpa [OrderedMap.get?_insert, other] using found

/-! ## The class hierarchy -/

section Hierarchy

variable {first second : Program}

theorem ancestryFrom_congr (classes : second.classes = first.classes) (start : Atom)
    (remaining : List ClassDecl) (superclass : Json) :
    second.ancestryFrom start remaining superclass =
      first.ancestryFrom start remaining superclass := by
  have sameClass (name : Atom) : second.class? name = first.class? name := by
    simp only [class?, classes]
  induction size : remaining.length using Nat.strong_induction_on generalizing remaining superclass with
  | h n ih =>
      have passed {name : Atom} {c : ClassDecl} {rest : List ClassDecl}
          (found : ClassDecl.pick? name remaining = some (c, rest)) :
          second.ancestryFrom start rest c.superclass = first.ancestryFrom start rest c.superclass := by
        have shorter := ClassDecl.length_of_pick? found
        exact ih rest.length (by omega) rest c.superclass rfl
      unfold ancestryFrom
      cases superclass with
      | arr items => rfl
      | obj fields => rfl
      | atom name =>
          simp only [sameClass]
          split
          · rfl
          · split
            · rfl
            · split
              · rename_i found
                rw [passed found]
              · rfl

theorem ancestry_congr (classes : second.classes = first.classes) (c : ClassDecl) :
    second.ancestry c = first.ancestry c := by
  simp only [ancestry, classes, ancestryFrom_congr classes]

theorem entryAbove_congr (config : second.config = first.config)
    (classes : second.classes = first.classes) (subsignature : Atom) (above : Ancestry) :
    second.entryAbove subsignature above = first.entryAbove subsignature above := by
  induction above with
  | done | broken => rfl
  | link name rest ih => simp only [entryAbove, class?, config, classes, ih]

theorem Alike.entrySearch (alike : first.Alike second) (c : ClassDecl) :
    second.entrySearch c = first.entrySearch c := by
  simp only [Program.entrySearch, alike.config, ancestry_congr alike.classes,
    entryAbove_congr alike.config alike.classes]

theorem Alike.implementsRunnable (alike : first.Alike second) (c : ClassDecl) :
    second.implementsRunnable c = first.implementsRunnable c := by
  simp only [Program.implementsRunnable, alike.config, alike.classes]

theorem Alike.isThreadSubclass (alike : first.Alike second) (c : ClassDecl) :
    second.isThreadSubclass c = first.isThreadSubclass c := by
  simp only [Program.isThreadSubclass, alike.config, ancestry_congr alike.classes]

theorem Alike.class? (alike : first.Alike second) (name : Atom) :
    second.class? name = first.class? name := by
  simp only [Program.class?, alike.classes]

end Hierarchy

end Program

/-! ## Inspections -/

namespace Inspection

structure Alike (first second : Inspection) : Prop where
  failures : second.failures = first.failures
  program : first.program.Alike second.program

/-- Whether the second inspection answers what the first one answers: only questions that fail in the
    first one may fail in it. -/
structure Clearer (first second : Inspection) : Prop where
  program : first.program.Alike second.program
  failure? : ∀ query subject, first.failure? query subject = none →
    second.failure? query subject = none

variable {first second third : Inspection}

namespace Alike

theorem refl (i : Inspection) : i.Alike i := ⟨rfl, .refl _⟩

theorem symm (alike : first.Alike second) : second.Alike first :=
  ⟨alike.failures.symm, alike.program.symm⟩

theorem trans (early : first.Alike second) (late : second.Alike third) : first.Alike third :=
  ⟨late.failures.trans early.failures, early.program.trans late.program⟩

/-- What is written down about a program does not change it. -/
theorem of_eq (failures : second.failures = first.failures)
    (program : second.program = first.program) : first.Alike second :=
  ⟨failures, program ▸ .refl _⟩

theorem failure? (alike : first.Alike second) (query : Query) (subject : Atom) :
    second.failure? query subject = first.failure? query subject := by
  simp only [Inspection.failure?, failureFor, alike.failures]

theorem body (alike : first.Alike second) (p : Procedure) : second.body p = first.body p := by
  simp only [Inspection.body, answer, alike.failure?]

theorem clearer (alike : first.Alike second) : first.Clearer second :=
  ⟨alike.program, fun query subject answered => (alike.failure? query subject).trans answered⟩

end Alike

theorem Clearer.trans (early : first.Clearer second) (late : second.Clearer third) :
    first.Clearer third :=
  ⟨early.program.trans late.program,
    fun _ _ answered => late.failure? _ _ (early.failure? _ _ answered)⟩

/-- Nothing fails where no failures are set. -/
theorem clearer_of_noFailures (alike : first.program.Alike second.program)
    (noFailures : second.failures = []) : first.Clearer second :=
  ⟨alike, fun query subject _ => by simp [Inspection.failure?, failureFor, noFailures]⟩

theorem answer_eq_ok {α : Type} {i : Inspection} {query : Query} {subject : Atom}
    {value : Except Fault α} {a : α} :
    i.answer query subject value = .ok a ↔ i.failure? query subject = none ∧ value = .ok a := by
  unfold answer
  cases i.failure? query subject <;> simp

theorem Clearer.answer {α : Type} (clearer : first.Clearer second) {query : Query}
    {subject : Atom} {value : Except Fault α} {a : α}
    (answered : first.answer query subject value = .ok a) :
    second.answer query subject value = .ok a := by
  rw [answer_eq_ok] at answered ⊢
  exact ⟨clearer.failure? _ _ answered.1, answered.2⟩

theorem Clearer.body (clearer : first.Clearer second) {p : Procedure}
    {body : Option (List Statement)} (answered : first.body p = .ok body) :
    second.body p = .ok body :=
  clearer.answer answered

theorem Clearer.classInfo (clearer : first.Clearer second) {name : Json} {c : Option ClassDecl}
    (answered : first.classInfo name = .ok c) : second.classInfo name = .ok c := by
  unfold Inspection.classInfo at answered ⊢
  cases keyed : name.asKey with
  | error fault => simp [keyed, bind, Except.bind] at answered
  | ok key =>
      simp only [keyed, bind, Except.bind] at answered ⊢
      cases refused : first.failure? .classInfo key with
      | some fault => simp [refused, throw, throwThe, MonadExceptOf.throw] at answered
      | none =>
          simpa [refused, clearer.failure? _ _ refused, clearer.program.class?] using answered

end Inspection

namespace Inspecting

/-- Whether a computation neither records an issue nor changes an answer. -/
def Quiet {α : Type} (x : Inspecting α) : Prop :=
  ∀ i : Inspection, i.Alike (x.attempt i).2 ∧ (x.attempt i).2.issues = i.issues

structure Steady {α : Type} (x : Inspecting α) : Prop where
  quiet : x.Quiet
  stable : ∀ {i j a}, Inspection.Clearer i j → (x.attempt i).1 = .ok a → (x.attempt j).1 = .ok a

section Steady

variable {α β : Type}

@[simp] theorem attempt_pure (a : α) (i : Inspection) :
    (pure a : Inspecting α).attempt i = (.ok a, i) := rfl

theorem attempt_bind (x : Inspecting α) (f : α → Inspecting β) (i : Inspection) :
    (x >>= f).attempt i =
      match x.attempt i with
      | (.ok a, j) => (f a).attempt j
      | (.error fault, j) => (.error fault, j) := by
  cases result : x i with
  | ok a j => simp only [attempt, bind_of_ok result, result]
  | error fault j => simp only [attempt, bind_of_error result, result]

theorem Quiet.bind {x : Inspecting α} {f : α → Inspecting β} (first : x.Quiet)
    (second : ∀ a, (f a).Quiet) : (x >>= f).Quiet := by
  intro i
  obtain ⟨early, silent⟩ := first i
  rw [attempt_bind]
  generalize x.attempt i = result at early silent
  obtain ⟨outcome, j⟩ := result
  cases outcome with
  | ok a =>
      obtain ⟨late, silentLate⟩ := second a j
      exact ⟨early.trans late, silentLate.trans silent⟩
  | error fault => exact ⟨early, silent⟩

theorem Steady.bind {x : Inspecting α} {f : α → Inspecting β} (first : x.Steady)
    (second : ∀ a, (f a).Steady) : (x >>= f).Steady where
  quiet := first.quiet.bind fun a => (second a).quiet
  stable {i j b} clearer returned := by
    have alikeFirst := (first.quiet i).1
    have alikeSecond := (first.quiet j).1
    have same := fun {a} => first.stable (a := a) clearer
    rw [attempt_bind] at returned ⊢
    generalize x.attempt i = result at returned alikeFirst same
    generalize x.attempt j = result' at alikeSecond same ⊢
    obtain ⟨outcome, i'⟩ := result
    obtain ⟨outcome', j'⟩ := result'
    cases outcome with
    | error fault => cases returned
    | ok a =>
        have sameOutcome : outcome' = .ok a := same rfl
        subst sameOutcome
        -- The first part leaves both inspections alike, so the second one is still clearer.
        refine (second a).stable ?_ returned
        exact alikeFirst.symm.clearer.trans (clearer.trans alikeSecond.clearer)

/-- Computations agree on what they return from inspections that are alike. -/
theorem Steady.agrees {x : Inspecting α} (steady : x.Steady) {i j : Inspection}
    (alike : i.Alike j) (a : α) : (x.attempt j).1 = .ok a ↔ (x.attempt i).1 = .ok a :=
  ⟨steady.stable alike.symm.clearer, steady.stable alike.clearer⟩

theorem steady_pure (a : α) : (pure a : Inspecting α).Steady where
  quiet _ := ⟨.refl _, rfl⟩
  stable _ returned := returned

theorem steady_throw (fault : Fault) : (throw fault : Inspecting α).Steady where
  quiet _ := ⟨.refl _, rfl⟩
  stable _ returned := returned

theorem attempt_ask (question : Inspection → Except Fault α) (i : Inspection) :
    (ask question).attempt i = (question i, i) := by
  cases answer : question i with
  | ok a => exact attempt_of_ok (ask_of_ok answer)
  | error fault => exact attempt_of_error (ask_of_error answer)

theorem quiet_ask (question : Inspection → Except Fault α) : (ask question).Quiet := by
  intro i
  rw [attempt_ask]
  exact ⟨.refl _, rfl⟩

theorem steady_ask {question : Inspection → Except Fault α}
    (stable : ∀ {i j a}, Inspection.Clearer i j → question i = .ok a → question j = .ok a) :
    (ask question).Steady where
  quiet := quiet_ask question
  stable clearer returned := by
    rw [attempt_ask] at returned ⊢
    exact stable clearer returned

end Steady

/-- The state after a procedure was found. -/
def learned (i : Inspection) (signature : Text) (program : Program) : Inspection :=
  if i.program.procedures.contains signature then { i with program }
  else ({ i with program } : Inspection).debug .program ("Created phantom procedure " ++ signature)

theorem learned_fields (i : Inspection) (signature : Text) (program : Program) :
    (learned i signature program).program = program ∧
      (learned i signature program).failures = i.failures ∧
      (learned i signature program).issues = i.issues := by
  unfold learned
  split <;> exact ⟨rfl, rfl, rfl⟩

theorem attempt_declared (signature : Text) (i : Inspection) :
    (declared signature).attempt i =
      match i.program.procedure signature with
      | .error fault => (.error fault, i)
      | .ok (p, program) => (.ok p, learned i signature program) := by
  cases found : i.program.procedure signature with
  | error fault => exact attempt_of_error (declared_of_error found)
  | ok result =>
      obtain ⟨p, program⟩ := result
      refine attempt_of_ok ?_
      have started : (get : Inspecting Inspection) i = .ok i i := rfl
      have looked : (ofExcept (i.program.procedure signature) : Inspecting (Procedure × Program)) i =
          .ok (p, program) i := by rw [found]; rfl
      refine (bind_of_ok started).trans ((bind_of_ok looked).trans ?_)
      unfold learned
      by_cases isKnown : i.program.procedures.contains signature
      · simp only [isKnown]
        rfl
      · simp only [isKnown]
        rfl

theorem steady_declared (signature : Text) : (declared signature).Steady where
  quiet i := by
    rw [attempt_declared]
    cases found : i.program.procedure signature with
    | error fault => exact ⟨.refl _, rfl⟩
    | ok result =>
        obtain ⟨p, program⟩ := result
        obtain ⟨isProgram, failures, issues⟩ := learned_fields i signature program
        refine ⟨⟨failures, ?_⟩, issues⟩
        rw [isProgram]
        exact Program.alike_of_procedure found
  stable {i j p} clearer returned := by
    rw [attempt_declared] at returned ⊢
    cases found : i.program.procedure signature with
    | error fault => simp [found] at returned
    | ok result =>
        obtain ⟨q, program⟩ := result
        obtain rfl : q = p := by simpa [found] using returned
        obtain ⟨after, foundAfter⟩ := clearer.program.exists_procedure found
        simp [foundAfter]

theorem steady_ofExcept {α : Type} (result : Except Fault α) :
    (ofExcept result : Inspecting α).Steady := by
  cases result with
  | ok a => exact steady_pure a
  | error fault => exact steady_throw fault

theorem steady_lookup (name : Json) : (lookup name).Steady :=
  (steady_ofExcept _).bind fun _ => (steady_ofExcept _).bind fun _ => steady_declared _

/-- The procedure of a value is looked up once the question has been let through. -/
theorem procedure_eq (name : Json) :
    procedure name = (ofExcept name.asKey >>= fun key =>
      ask (fun i => i.answer .procedure key (.ok ())) >>= fun _ => lookup name) := by
  unfold procedure
  congr 1
  funext key i
  have started : (get : Inspecting Inspection) i = .ok i i := rfl
  refine (bind_of_ok started).trans ?_
  cases refused : i.failure? .procedure key with
  | some fault =>
      refine (bind_of_error (ask_of_error ?_)).symm
      simp only [Inspection.answer, refused]
  | none =>
      have asked : ask (fun i => i.answer .procedure key (.ok ())) i = .ok () i :=
        ask_of_ok (by simp only [Inspection.answer, refused])
      rw [bind_of_ok asked]

theorem steady_procedure (name : Json) : (procedure name).Steady := by
  rw [procedure_eq]
  refine (steady_ofExcept _).bind fun key => Steady.bind (steady_ask ?_) fun _ => steady_lookup name
  exact fun clearer answered => clearer.answer answered

theorem entryPoint_eq (c : ClassDecl) :
    entryPoint c = (do
      match ← ask fun i => i.answer .entry c.name (i.program.entrySearch c) with
      | .found p => return some p
      | .missing => return none
      | .undeclared signature => return some (← procedure (.text signature))) :=
  rfl

theorem steady_entryPoint (c : ClassDecl) : (entryPoint c).Steady := by
  rw [entryPoint_eq]
  refine Steady.bind (steady_ask ?_) fun outcome => ?_
  · intro i j a clearer answered
    rw [clearer.program.entrySearch]
    exact clearer.answer answered
  · cases outcome with
    | found p => exact steady_pure _
    | missing => exact steady_pure _
    | undeclared signature => exact (steady_procedure _).bind fun p => steady_pure _

end Inspecting

namespace Dispatch

open Inspecting

theorem steady_isRunnable (c : ClassDecl) : (isRunnable c).Steady := by
  refine Steady.bind (steady_ask ?_) fun implements => ?_
  · intro i j answer clearer answered
    unfold Inspection.implementsRunnable
    rw [clearer.program.implementsRunnable]
    exact clearer.answer answered
  · cases implements with
    | true => exact steady_pure _
    | false =>
        refine steady_ask ?_
        intro i j answer clearer answered
        unfold Inspection.isThreadSubclass
        rw [clearer.program.isThreadSubclass]
        exact clearer.answer answered

theorem steady_entryOf (c : ClassDecl) : (entryOf c).Steady := by
  refine (steady_isRunnable c).bind fun runnable => ?_
  cases runnable with
  | true => exact (steady_entryPoint c).bind fun _ => steady_pure _
  | false => exact steady_pure _

end Dispatch

namespace DispatchRule

open Inspecting

theorem steady_submitted (context : Context) (caller : Procedure) (s : Statement) :
    (submitted context caller s).Steady := by
  unfold submitted
  cases s.firstArgType with
  | none => exact steady_pure _
  | some type =>
      refine Steady.bind (steady_ask fun clearer answered => clearer.classInfo answered)
        fun found => ?_
      cases found with
      | none => exact steady_pure _
      | some c =>
          simp only
          split
          · exact steady_pure _
          · refine (steady_entryPoint c).bind fun entry => ?_
            cases entry <;> exact steady_pure _

theorem steady_judge (rule : DispatchRule) (context : Context) (g : CallGraph)
    (caller : Procedure) (site : Site) (s : Statement) :
    (rule.judge context g caller site s).Steady := by
  unfold judge
  cases s.invokedMethod with
  | none => exact steady_pure _
  | some method =>
      cases rule with
      | submit =>
          simp only
          split
          · exact steady_submitted context caller s
          · exact steady_pure _
      | start =>
          simp only
          split <;> exact steady_pure _
      | fallback =>
          simp only
          split
          · exact (steady_procedure method).bind fun _ => steady_pure _
          · exact steady_pure _

end DispatchRule

/-! ## Augmenting -/

namespace Dispatch

theorem alike_classEntry (config : Config) (c : ClassDecl) (i : Inspection) :
    i.Alike (classEntry config c i).2 := by
  have alike := ((steady_entryOf c).quiet i).1
  unfold classEntry
  split <;> rename_i result <;> rw [result] at alike
  · exact alike.trans (.of_eq rfl rfl)
  · exact alike
  · exact alike.trans (.of_eq rfl rfl)
  · exact alike

theorem alike_entriesOf (config : Config) (classes : List ClassDecl) (i : Inspection) :
    i.Alike (entriesOf config classes i).2 := by
  induction classes generalizing i with
  | nil => exact .refl _
  | cons c rest ih =>
      unfold entriesOf
      split
      · exact ih i
      · exact (alike_classEntry config c i).trans (ih _)

end Dispatch

namespace Augmentation

variable (rules : List DispatchRule) (context : DispatchRule.Context)

theorem alike_link (rule : DispatchRule) (caller : Procedure) (site : Site) (s : Statement)
    (a : Augmentation) (targets : List Procedure) :
    a.inspection.Alike (link rule caller site s a targets).1.inspection := by
  induction targets generalizing a with
  | nil => exact .refl _
  | cons target rest ih =>
      unfold link
      split
      · exact ih a
      · dsimp only
        refine Inspection.Alike.trans ?_ (ih _)
        exact .of_eq rfl rfl

theorem alike_applyRules (caller : Procedure) (site : Site) (s : Statement) (a : Augmentation) :
    a.inspection.Alike (applyRules context caller site s a rules).1.inspection := by
  induction rules generalizing a with
  | nil => exact .refl _
  | cons rule rest ih =>
      have alike := ((rule.steady_judge context a.graph caller site s).quiet a.inspection).1
      unfold applyRules
      split <;> rename_i result <;> rw [result] at alike
      · refine Inspection.Alike.trans ?_ (ih _)
        exact alike
      · refine Inspection.Alike.trans ?_ (alike_link rule caller site s _ _)
        exact alike
      · exact alike.trans (.of_eq rfl rfl)
      · exact alike.trans (.of_eq rfl rfl)

theorem alike_isApplication (a : Augmentation) (p : Procedure) :
    a.inspection.Alike (a.isApplication p).2.inspection := by
  unfold isApplication
  split
  · exact .refl _
  · exact .of_eq rfl rfl

theorem alike_descend (a : Augmentation) (targets : List Procedure) (edges : List CallEdge) :
    a.inspection.Alike (a.descend targets edges).1.inspection := by
  induction edges generalizing a targets with
  | nil => exact .refl _
  | cons e rest ih =>
      unfold descend
      split
      · exact ih a targets
      · exact (alike_isApplication a e.target).trans (ih _ _)

theorem alike_walkBody (p : Procedure) (a : Augmentation) (targets : List Procedure)
    (body : List (Site × Statement)) :
    a.inspection.Alike (walkBody rules context p a targets body).1.inspection := by
  induction body generalizing a targets with
  | nil => exact .refl _
  | cons placed rest ih =>
      obtain ⟨site, s⟩ := placed
      unfold walkBody
      split
      · exact (alike_applyRules rules context p site s a).trans
          ((alike_descend _ _ _).trans (ih _ _))
      · exact ih a targets

theorem alike_visit (p : Procedure) (a : Augmentation) :
    a.inspection.Alike (visit rules context p a).1.inspection := by
  unfold visit
  dsimp only
  split
  · exact .of_eq rfl rfl
  · exact .of_eq rfl rfl
  · exact alike_walkBody rules context p { a with visited := p.signature :: a.visited } [] _

theorem alike_walk (declared : List Text) (worklist : List Procedure) (a : Augmentation) :
    a.inspection.Alike (walk rules context declared worklist a).inspection := by
  fun_induction walk rules context declared worklist a with
  | case1 a => exact .refl _
  | case2 p worklist a wasVisited ih => exact ih
  | case3 p worklist a isNew next isDeclared ih => exact (alike_visit rules context p a).trans ih
  | case4 p worklist a isNew next isUndeclared ih => exact (alike_visit rules context p a).trans ih

theorem alike_extend (declared : List Text) (a : Augmentation) (roots : List Procedure) :
    a.inspection.Alike (extend rules context declared a roots).inspection := by
  induction roots generalizing a with
  | nil => exact .refl _
  | cons root rest ih =>
      simp only [extend, List.foldl_cons]
      refine Inspection.Alike.trans ?_ (ih _)
      split
      · exact .refl _
      · exact alike_walk rules context declared [root] a

/-- The state in which a run begins to walk. -/
def begun (config : Config) (a : Augmentation) : Augmentation :=
  let found := Dispatch.runnableEntries config a.inspection
  { a with
    inspection := found.2.info .dispatch
      s!"Augmenting call graph ({found.1.length} runnable entry points)"
    added := [] }

/-- What the rules may look at during a run. -/
def contextOf (config : Config) (a : Augmentation) : DispatchRule.Context :=
  { config, entries := (Dispatch.runnableEntries config a.inspection).1 }

/-- The state at the end of a walk over the whole program. -/
def walked (config : Config) (a : Augmentation) : Augmentation :=
  let start := begun config a
  extend rules (contextOf config a) (declaredSignatures start.inspection.program) start
    start.inspection.program.applicationProcedures

theorem run_eq (config : Config) (a : Augmentation) :
    run rules config a = (walked rules config a).inspect (·.info .dispatch
      s!"Added {(walked rules config a).added.length} synthetic call edges") := rfl

section Run

variable (config : Config) (a : Augmentation)

-- The equations below are stated for any augmentation first: comparing the fields of a run with those
-- of its walk directly would unfold the walk.

theorem added_inspect (change : Inspection → Inspection) : (a.inspect change).added = a.added := rfl

theorem graph_inspect (change : Inspection → Inspection) : (a.inspect change).graph = a.graph := rfl

theorem inspection_inspect (change : Inspection → Inspection) :
    (a.inspect change).inspection = change a.inspection := rfl

theorem added_run : (run rules config a).added = (walked rules config a).added := by
  rw [run_eq, added_inspect]

theorem graph_run : (run rules config a).graph = (walked rules config a).graph := by
  rw [run_eq, graph_inspect]

theorem issues_run_walked :
    (run rules config a).inspection.issues = (walked rules config a).inspection.issues := by
  rw [run_eq, inspection_inspect, Inspection.info]

end Run

theorem alike_begun (config : Config) (a : Augmentation) :
    a.inspection.Alike (begun config a).inspection :=
  (Dispatch.alike_entriesOf config _ a.inspection).trans (.of_eq rfl rfl)

/-- An augmentation changes no answer. -/
theorem alike_run (config : Config) (a : Augmentation) :
    a.inspection.Alike (run rules config a).inspection := by
  have walks : (begun config a).inspection.Alike (walked rules config a).inspection :=
    alike_extend rules _ _ _ _
  have tells (i : Inspection) (message : Text) : i.Alike (i.info .dispatch message) := .of_eq rfl rfl
  rw [run_eq, inspection_inspect]
  exact (alike_begun config a).trans (walks.trans (tells _ _))

end Augmentation

end CallWeight
