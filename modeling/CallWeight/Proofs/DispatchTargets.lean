import CallWeight.Proofs.CallSites

/-! # What a call may run

What a call may run besides its declared targets is a matter of the program and of the graph alone:
the entry of a submitted task, any runnable entry for a started thread, and for a call without edges
the method that it names. `Program.Dispatches` says this for one call site without mentioning rules. A
program that answers every question gives the rules what they need to decide accordingly.
-/

namespace CallWeight

namespace Program

/-- The method that runs when a class is started, if it has one. -/
def entryPoint (program : Program) (c : ClassDecl) : Except Fault (Option Procedure) := do
  match ← program.entrySearch c with
  | .found p => return some p
  | .missing => return none
  | .undeclared signature => ((program.procedure signature).map Prod.fst).map some

/-- Whether a class is runnable or, if not, a thread class. -/
def isRunnable (program : Program) (c : ClassDecl) : Except Fault Bool := do
  if ← program.implementsRunnable c then return true
  program.isThreadSubclass c

/-- The method that runs when a class is started on a thread. -/
def threadEntry (program : Program) (c : ClassDecl) : Except Fault (Option Procedure) := do
  if ← program.isRunnable c then program.entryPoint c else return none

/-- Whether a signature is that of a procedure, which may be a phantom. -/
def Names (program : Program) (signature : Text) (p : Procedure) : Prop :=
  (program.procedure signature).map Prod.fst = .ok p

/-- Whether a procedure is the entry of an application class that can run on a thread. -/
def RunnableEntry (program : Program) (p : Procedure) : Prop :=
  ∃ c ∈ program.applicationClasses, c.isInterface = false ∧ program.threadEntry c = .ok (some p)

/-- Whether a procedure is the entry of the class that the first argument of a call belongs to. -/
def TaskEntry (program : Program) (s : Statement) (p : Procedure) : Prop :=
  ∃ type, s.firstArgType = some (.atom type) ∧ ∃ c, program.class? type = some c ∧
    c.isInterface = false ∧ program.entryPoint c = .ok (some p)

theorem TaskEntry.unique {program : Program} {s : Statement} {p q : Procedure}
    (first : program.TaskEntry s p) (second : program.TaskEntry s q) : p = q := by
  obtain ⟨type, typed, c, known, -, entry⟩ := first
  obtain ⟨type', typed', c', known', -, entry'⟩ := second
  rw [typed] at typed'
  cases typed'
  rw [known] at known'
  cases known'
  rw [entry] at entry'
  cases entry'
  rfl

/-- What a call site may run besides its declared targets. -/
inductive Dispatches (program : Program) (g : CallGraph) (caller : Procedure) (site : Site)
    (s : Statement) : EdgeKind → Procedure → Prop
  | submit {signature : Text} {target : Procedure}
      (invoked : s.invokedMethod = some (.text signature))
      (submits : signature ∈ program.config.submitSignatures)
      (entry : program.TaskEntry s target) :
      Dispatches program g caller site s .executorSubmit target
  | start {signature : Text} {target : Procedure}
      (invoked : s.invokedMethod = some (.text signature))
      (submitsNot : signature ∉ program.config.submitSignatures)
      (starts : signature ∈ program.config.threadStartSignatures)
      (entry : program.RunnableEntry target) (other : target.signature ≠ caller.signature) :
      Dispatches program g caller site s .threadStart target
  | fallback {signature : Text} {target : Procedure}
      (invoked : s.invokedMethod = some (.text signature))
      (submitsNot : signature ∉ program.config.submitSignatures)
      (startsNot : signature ∉ program.config.threadStartSignatures)
      (unresolved : ∀ e ∈ g.edges, e.site ≠ site) (named : program.Names signature target) :
      Dispatches program g caller site s .staticFallback target

theorem Dispatches.isCall {program : Program} {g : CallGraph} {caller : Procedure} {site : Site}
    {s : Statement} {kind : EdgeKind} {target : Procedure}
    (dispatches : program.Dispatches g caller site s kind target) : s.isCall = true := by
  cases dispatches with
  | submit invoked | start invoked | fallback invoked => simp [Statement.isCall, invoked]

/-- The invoked signature decides which way a call is dispatched. -/
theorem dispatches_iff {program : Program} {g : CallGraph} {caller : Procedure} {site : Site}
    {s : Statement} {signature : Text} (invoked : s.invokedMethod = some (.text signature))
    (kind : EdgeKind) (target : Procedure) :
    program.Dispatches g caller site s kind target ↔
      if signature ∈ program.config.submitSignatures then
        kind = .executorSubmit ∧ program.TaskEntry s target
      else if signature ∈ program.config.threadStartSignatures then
        kind = .threadStart ∧ program.RunnableEntry target ∧ target.signature ≠ caller.signature
      else
        kind = .staticFallback ∧ (∀ e ∈ g.edges, e.site ≠ site) ∧
          program.Names signature target := by
  constructor
  · intro dispatches
    cases dispatches with
    | submit isInvoked submits entry =>
        cases invoked.symm.trans isInvoked
        rw [if_pos submits]
        exact ⟨rfl, entry⟩
    | start isInvoked submitsNot starts entry other =>
        cases invoked.symm.trans isInvoked
        rw [if_neg submitsNot, if_pos starts]
        exact ⟨rfl, entry, other⟩
    | fallback isInvoked submitsNot startsNot unresolved named =>
        cases invoked.symm.trans isInvoked
        rw [if_neg submitsNot, if_neg startsNot]
        exact ⟨rfl, unresolved, named⟩
  · intro decided
    by_cases submits : signature ∈ program.config.submitSignatures
    · rw [if_pos submits] at decided
      obtain ⟨rfl, entry⟩ := decided
      exact .submit invoked submits entry
    · rw [if_neg submits] at decided
      by_cases starts : signature ∈ program.config.threadStartSignatures
      · rw [if_pos starts] at decided
        obtain ⟨rfl, entry, other⟩ := decided
        exact .start invoked submits starts entry other
      · rw [if_neg starts] at decided
        obtain ⟨rfl, unresolved, named⟩ := decided
        exact .fallback invoked submits starts unresolved named

/-- Whether a call submits a task of which it cannot be told what it runs. -/
def UnclearSubmission (program : Program) (s : Statement) : Prop :=
  ∃ signature, s.invokedMethod = some (.text signature) ∧
    signature ∈ program.config.submitSignatures ∧ ∀ p, ¬ program.TaskEntry s p

theorem UnclearSubmission.isCall {program : Program} {s : Statement}
    (unclear : program.UnclearSubmission s) : s.isCall = true := by
  obtain ⟨signature, invoked, -⟩ := unclear
  simp [Statement.isCall, invoked]

/-- The places at which a procedure submits tasks of which it cannot be told what they run. -/
def Unclear (program : Program) (p : Procedure) (place : IssuePlace) : Prop :=
  ∃ body, p.body = some body ∧ ∃ site s, (site, s) ∈ p.placed body ∧
    program.UnclearSubmission s ∧
    place = ⟨"augment", .classificationFailure, some p.signature, .ofNat site.position⟩

/-- The edges that a procedure lacks in a graph: those to what its call sites may run and have no edge
    to. -/
def Lacks (program : Program) (g : CallGraph) (p : Procedure) (e : CallEdge) : Prop :=
  ∃ body, p.body = some body ∧ ∃ site s, (site, s) ∈ p.placed body ∧
    ∃ kind target, program.Dispatches g p site s kind target ∧
      (∀ f ∈ g.edges, f.site = site → f.target.signature ≠ target.signature) ∧
      e = { source := p, site, index := s.index, target, kind }

/-! ## Programs that answer alike -/

section Alike

variable {first second : Program} (alike : first.Alike second)

include alike

theorem Alike.entryPoint (c : ClassDecl) : second.entryPoint c = first.entryPoint c := by
  simp only [Program.entryPoint, alike.entrySearch, alike.procedure]

theorem Alike.threadEntry (c : ClassDecl) : second.threadEntry c = first.threadEntry c := by
  simp only [Program.threadEntry, isRunnable, alike.implementsRunnable, alike.isThreadSubclass,
    alike.entryPoint]

theorem Alike.taskEntry (s : Statement) (p : Procedure) :
    second.TaskEntry s p ↔ first.TaskEntry s p := by
  simp only [TaskEntry, alike.class?, alike.entryPoint]

theorem Alike.runnableEntry (p : Procedure) : second.RunnableEntry p ↔ first.RunnableEntry p := by
  simp only [RunnableEntry, alike.applicationClasses, alike.threadEntry]

theorem Alike.names (signature : Text) (p : Procedure) :
    second.Names signature p ↔ first.Names signature p := by
  simp only [Names, alike.procedure]

theorem Alike.dispatches {g : CallGraph} {caller : Procedure} {site : Site} {s : Statement}
    {kind : EdgeKind} {target : Procedure}
    (dispatches : first.Dispatches g caller site s kind target) :
    second.Dispatches g caller site s kind target := by
  cases dispatches with
  | submit invoked submits entry =>
      exact .submit invoked (alike.config ▸ submits) ((alike.taskEntry s target).mpr entry)
  | start invoked submitsNot starts entry other =>
      exact .start invoked (alike.config ▸ submitsNot) (alike.config ▸ starts)
        ((alike.runnableEntry target).mpr entry) other
  | fallback invoked submitsNot startsNot unresolved named =>
      exact .fallback invoked (alike.config ▸ submitsNot) (alike.config ▸ startsNot) unresolved
        ((alike.names _ target).mpr named)

theorem Alike.lacks (g : CallGraph) (p : Procedure) (e : CallEdge) :
    second.Lacks g p e ↔ first.Lacks g p e := by
  unfold Lacks
  constructor
  · rintro ⟨body, hasBody, site, s, isPlaced, kind, target, dispatches, others⟩
    exact ⟨body, hasBody, site, s, isPlaced, kind, target, alike.symm.dispatches dispatches, others⟩
  · rintro ⟨body, hasBody, site, s, isPlaced, kind, target, dispatches, others⟩
    exact ⟨body, hasBody, site, s, isPlaced, kind, target, alike.dispatches dispatches, others⟩

theorem Alike.unclear (p : Procedure) (place : IssuePlace) :
    second.Unclear p place ↔ first.Unclear p place := by
  simp only [Unclear, UnclearSubmission, alike.config, alike.taskEntry]

end Alike

end Program

/-! ## Asking a program that answers everything -/

theorem Inspecting.attempt_map {α β : Type} (x : Inspecting α) (f : α → β) (i : Inspection) :
    ((do return f (← x)).attempt i).1 = (x.attempt i).1.map f := by
  rw [attempt_bind]
  generalize x.attempt i = result
  obtain ⟨answer, j⟩ := result
  cases answer with
  | ok a => rfl
  | error fault => rfl

section NoFailures

variable {i : Inspection} (noFailures : i.failures = [])

include noFailures

theorem Inspecting.attempt_procedure (signature : Text) :
    ((procedure (.text signature)).attempt i).1 =
      (i.program.procedure signature).map Prod.fst := by
  have keyed : (ofExcept (Json.text signature).asKey : Inspecting Atom).attempt i =
      (.ok (.text signature), i) := rfl
  have isText : (ofExcept ((Json.text signature).asText "startswith") : Inspecting Text).attempt i =
      (.ok signature, i) := rfl
  have looked : (lookup (.text signature)).attempt i = (declared signature).attempt i := by
    simp only [lookup, attempt_bind, keyed, isText]
  simp only [procedure_eq, attempt_bind, keyed, attempt_ask,
    Inspection.answer_of_noFailures noFailures, looked, attempt_declared]
  cases i.program.procedure signature with
  | error fault => rfl
  | ok found => rfl

theorem Inspecting.attempt_entryPoint (c : ClassDecl) :
    ((entryPoint c).attempt i).1 = i.program.entryPoint c := by
  rw [entryPoint_eq, attempt_bind, attempt_ask, Inspection.answer_of_noFailures noFailures]
  unfold Program.entryPoint
  cases i.program.entrySearch c with
  | error fault => rfl
  | ok outcome =>
      cases outcome with
      | found p => rfl
      | missing => rfl
      | undeclared signature =>
          refine (attempt_map _ some i).trans ?_
          rw [attempt_procedure noFailures]
          rfl

theorem Dispatch.attempt_isRunnable (c : ClassDecl) :
    (isRunnable c).attempt i = (i.program.isRunnable c, i) := by
  have implements : i.implementsRunnable c = i.program.implementsRunnable c :=
    Inspection.answer_of_noFailures noFailures _ _ _
  have descends : i.isThreadSubclass c = i.program.isThreadSubclass c :=
    Inspection.answer_of_noFailures noFailures _ _ _
  unfold isRunnable Program.isRunnable
  rw [Inspecting.attempt_bind, Inspecting.attempt_ask, implements]
  cases i.program.implementsRunnable c with
  | error fault => rfl
  | ok answer =>
      cases answer with
      | true => rfl
      | false =>
          refine (Inspecting.attempt_ask _ i).trans ?_
          rw [descends]
          rfl

theorem Dispatch.attempt_entryOf (c : ClassDecl) :
    ((entryOf c).attempt i).1.map Option.join = i.program.threadEntry c := by
  unfold entryOf Program.threadEntry
  rw [Inspecting.attempt_bind, attempt_isRunnable noFailures]
  cases i.program.isRunnable c with
  | error fault => rfl
  | ok answer =>
      cases answer with
      | false => rfl
      | true =>
          simp only [if_true, Inspecting.attempt_map, Inspecting.attempt_entryPoint noFailures]
          simp only [bind, Except.bind]
          cases i.program.entryPoint c with
          | error fault => rfl
          | ok found => rfl

end NoFailures

section Asking

variable {i : Inspection} (reliable : i.Reliable)

include reliable

theorem Dispatch.mem_runnableEntries (config : Config) (p : Procedure) :
    p ∈ (runnableEntries config i).1 ↔ i.program.RunnableEntry p := by
  unfold runnableEntries Program.RunnableEntry
  rw [mem_entriesOf config _ (.refl i)]
  refine exists_congr fun c => and_congr_right fun _ => and_congr_right fun _ => ?_
  rw [← attempt_entryOf reliable.noFailures]
  cases ((entryOf c).attempt i).1 with
  | error fault => simp [Except.map]
  | ok entry => simp [Except.map, Option.join_eq_some_iff]

theorem Inspection.Reliable.classInfo (name : Atom) :
    i.classInfo (.atom name) = .ok (i.program.class? name) := by
  simp only [Inspection.classInfo, Json.asKey, reliable.failure?]
  rfl

theorem DispatchRule.attempt_submitted_iff (context : Context) (caller : Procedure) (s : Statement)
    (p : Procedure) :
    ((submitted context caller s).attempt i).1 = .ok (.targets [p]) ↔ i.program.TaskEntry s p := by
  unfold submitted Program.TaskEntry
  cases s.firstArgType with
  | none => simp [unclearTask]
  | some type =>
      dsimp only
      rw [Inspecting.attempt_bind, Inspecting.attempt_ask]
      cases type with
      | arr items => simp [Inspection.classInfo, Json.asKey, bind, Except.bind]
      | obj fields => simp [Inspection.classInfo, Json.asKey, bind, Except.bind]
      | atom name =>
          rw [reliable.classInfo]
          simp only [Option.some.injEq, Json.atom.injEq, exists_eq_left']
          cases i.program.class? name with
          | none => simp [submitted.notConcrete, unclearTask]
          | some c =>
              simp only [Option.some.injEq, exists_eq_left',
                ← Inspecting.attempt_entryPoint reliable.noFailures]
              cases c.isInterface with
              | true => simp [submitted.notConcrete, unclearTask]
              | false =>
                  rw [if_neg Bool.false_ne_true, Inspecting.attempt_bind]
                  generalize (Inspecting.entryPoint c).attempt i = result
                  obtain ⟨answer, j⟩ := result
                  cases answer with
                  | error fault => simp
                  | ok entry =>
                      cases entry with
                      | none => simp [unclearTask]
                      | some q => simp

end Asking

namespace CallGraph

variable {g : CallGraph} (indexed : g.Indexed) {site : Site}

include indexed

theorem Indexed.isEmpty_edgesOutOf :
    (g.edgesOutOf site).isEmpty = true ↔ ∀ e ∈ g.edges, e.site ≠ site := by
  simp [indexed.outOf]

theorem Indexed.hasEdge_eq_false {signature : Text} :
    g.hasEdge site signature = false ↔
      ∀ e ∈ g.edges, e.site = site → e.target.signature ≠ signature := by
  simp [hasEdge, indexed.outOf]

end CallGraph

theorem DispatchRule.isAmong_text {signatures : List Text} {signature : Text} :
    isAmong signatures (.text signature) = true ↔ signature ∈ signatures := by
  simp [isAmong, Json.equalsAtom, Atom.equals, Atom.isNaN, Atom.sameKey, Atom.key]

theorem Program.Names.signature_of_filed {program : Program}
    (filed : ∀ {signature p}, program.procedures.get? signature = some p → p.signature = signature)
    {signature : Text} {p : Procedure} (named : program.Names signature p) :
    p.signature = signature := by
  unfold Names at named
  rw [map_fst_procedure] at named
  split at named
  · rename_i q held
    cases named
    exact filed held
  · exact (Procedure.phantom_spec named).1

theorem Program.Names.signature {program : Program} (coherent : program.Coherent)
    {signature : Text} {p : Procedure} (named : program.Names signature p) :
    p.signature = signature :=
  named.signature_of_filed coherent.filed

/-- What reads as a signature is the signature of a procedure. -/
theorem Program.exists_names (program : Program) {signature : Text} {parts : Text × Text}
    (splits : Signature.split signature = .ok parts) : ∃ p, program.Names signature p := by
  unfold Names
  rw [map_fst_procedure]
  cases program.procedures.get? signature with
  | some p => exact ⟨p, rfl⟩
  | none =>
      simp only [Procedure.phantom, splits]
      exact ⟨_, rfl⟩

end CallWeight
