import CallWeight.Proofs.Programs

/-! # What questions do to an inspection

A computation that only asks about signatures and classes and writes down what it finds is harmless:
whether it returns or fails, the failures that are set stay the same, and the program afterwards is a
later state of the program before. An inspection is reliable if no failures are set and the tables of
its program are in order; then all questions about known procedures are answered, and the answers are
those of the program.
-/

namespace CallWeight

namespace Inspection

structure Later (before after : Inspection) : Prop where
  failures : after.failures = before.failures
  program : before.program.Later after.program

theorem Later.refl (i : Inspection) : i.Later i := ⟨rfl, .refl _⟩

theorem Later.trans {first second third : Inspection} (early : first.Later second)
    (late : second.Later third) : first.Later third :=
  ⟨late.failures.trans early.failures, early.program.trans late.program⟩

/-- What is written down about a program does not change it. -/
theorem Later.of_eq {before after : Inspection} (failures : after.failures = before.failures)
    (program : after.program = before.program) : before.Later after :=
  ⟨failures, program ▸ .refl _⟩

section NoFailures

variable {i : Inspection} (noFailures : i.failures = [])

include noFailures

theorem failure?_eq_none (query : Query) (subject : Atom) : i.failure? query subject = none := by
  simp [Inspection.failure?, failureFor, noFailures]

theorem answer_of_noFailures {α : Type} (query : Query) (subject : Atom) (value : Except Fault α) :
    i.answer query subject value = value := by
  simp only [Inspection.answer, failure?_eq_none noFailures]

end NoFailures

structure Reliable (i : Inspection) : Prop where
  noFailures : i.failures = []
  coherent : i.program.Coherent
  named : i.program.Named

namespace Reliable

variable {i : Inspection} (reliable : i.Reliable)

include reliable

theorem later {j : Inspection} (later : i.Later j) : j.Reliable where
  noFailures := later.failures.trans reliable.noFailures
  coherent := later.program.coherent reliable.coherent
  named := later.program.named reliable.named

theorem failure? (query : Query) (subject : Atom) : i.failure? query subject = none :=
  failure?_eq_none reliable.noFailures query subject

theorem answer {α : Type} (query : Query) (subject : Atom) (value : Except Fault α) :
    i.answer query subject value = value :=
  answer_of_noFailures reliable.noFailures query subject value

theorem body (p : Procedure) : i.body p = .ok p.body := reliable.answer _ _ _

theorem isApplication {p : Procedure} (known : i.program.Knows p) :
    i.isApplication p = .ok (i.program.config.isApplicationClass p.declaringClass) :=
  (reliable.answer _ _ _).trans (reliable.coherent.isApplication_eq reliable.named known)

theorem depthMap {p : Procedure} (known : i.program.Knows p) :
    ∃ j, Inspecting.depthMap p i = .ok p.depthMap j ∧ i.Later j ∧ j.issues = i.issues := by
  have depths := Program.depthMap_eq reliable.coherent known
  refine ⟨{ i with program := (i.program.depthMap p).2 }, ?_,
    ⟨rfl, Program.depthMap_later known⟩, rfl⟩
  have started : (get : Inspecting Inspection) i = .ok i i := rfl
  refine (bind_of_ok started).trans ?_
  simp only [reliable.failure?]
  rw [← depths]
  rfl

end Reliable

end Inspection

namespace Inspecting

/-- Whether a computation leaves what it looks at as it was, with or without a result. -/
def Harmless {α : Type} (x : Inspecting α) : Prop :=
  ∀ i : Inspection, i.Later (x.attempt i).2

section Harmless

variable {α β : Type}

theorem attempt_of_ok {x : Inspecting α} {i j : Inspection} {a : α} (returned : x i = .ok a j) :
    x.attempt i = (.ok a, j) := by
  simp only [attempt, returned]

theorem attempt_of_error {x : Inspecting α} {i j : Inspection} {fault : Fault}
    (failed : x i = .error fault j) : x.attempt i = (.error fault, j) := by
  simp only [attempt, failed]

theorem Harmless.later {x : Inspecting α} (harmless : x.Harmless) {i j : Inspection} {a : α}
    (returned : x i = .ok a j) : i.Later j := by
  have later := harmless i
  rwa [attempt_of_ok returned] at later

theorem Harmless.bind {x : Inspecting α} {f : α → Inspecting β} (first : x.Harmless)
    (second : ∀ a, (f a).Harmless) : (x >>= f).Harmless := by
  intro i
  have early := first i
  cases result : x i with
  | ok a j =>
      have same : (x >>= f).attempt i = (f a).attempt j := by
        simp only [attempt, bind_of_ok result]
      rw [attempt_of_ok result] at early
      rw [same]
      exact early.trans (second a j)
  | error fault j =>
      rw [attempt_of_error result] at early
      rw [attempt_of_error (bind_of_error result)]
      exact early

theorem harmless_pure (a : α) : (pure a : Inspecting α).Harmless := fun _ => .refl _

theorem harmless_get : (get : Inspecting Inspection).Harmless := fun _ => .refl _

theorem harmless_throw (fault : Fault) : (throw fault : Inspecting α).Harmless := fun _ => .refl _

theorem harmless_ofExcept (result : Except Fault α) : (ofExcept result : Inspecting α).Harmless := by
  cases result with
  | ok a => exact harmless_pure a
  | error fault => exact harmless_throw fault

theorem harmless_ask (question : Inspection → Except Fault α) : (ask question).Harmless :=
  harmless_get.bind fun _ => harmless_ofExcept _

end Harmless

theorem declared_of_ok {signature : Text} {i : Inspection} {p : Procedure} {program : Program}
    (found : i.program.procedure signature = .ok (p, program)) :
    ∃ j, declared signature i = .ok p j ∧ j.failures = i.failures ∧ j.program = program := by
  have started : (get : Inspecting Inspection) i = .ok i i := rfl
  have looked : (ofExcept (i.program.procedure signature) : Inspecting (Procedure × Program)) i =
      .ok (p, program) i := by rw [found]; rfl
  unfold declared
  by_cases isKnown : i.program.procedures.contains signature
  · refine ⟨{ i with program }, ?_, rfl, rfl⟩
    refine (bind_of_ok started).trans ((bind_of_ok looked).trans ?_)
    simp only [isKnown]
    rfl
  · refine ⟨({ i with program } : Inspection).debug .program
      ("Created phantom procedure " ++ signature), ?_, rfl, rfl⟩
    refine (bind_of_ok started).trans ((bind_of_ok looked).trans ?_)
    simp only [isKnown]
    rfl

theorem declared_of_error {signature : Text} {i : Inspection} {fault : Fault}
    (failed : i.program.procedure signature = .error fault) :
    declared signature i = .error fault i := by
  have started : (get : Inspecting Inspection) i = .ok i i := rfl
  have looked : (ofExcept (i.program.procedure signature) : Inspecting (Procedure × Program)) i =
      .error fault i := by rw [failed]; rfl
  exact (bind_of_ok started).trans (bind_of_error looked)

theorem harmless_declared (signature : Text) : (declared signature).Harmless := by
  intro i
  cases found : i.program.procedure signature with
  | error fault =>
      rw [attempt_of_error (declared_of_error found)]
      exact .refl _
  | ok result =>
      obtain ⟨j, returned, failures, program⟩ := declared_of_ok found
      rw [attempt_of_ok returned]
      exact ⟨failures, program ▸ (Program.procedure_spec found).1⟩

theorem knows_of_declared {signature : Text} {i j : Inspection} {p : Procedure}
    (filed : i.program.Filed) (returned : declared signature i = .ok p j) :
    j.program.Knows p := by
  cases found : i.program.procedure signature with
  | error fault => cases (declared_of_error found).symm.trans returned
  | ok result =>
      obtain ⟨j', returned', -, program⟩ := declared_of_ok found
      cases returned'.symm.trans returned
      rw [program]
      exact (Program.procedure_spec found).2 filed

theorem harmless_procedure (signature : Json) : (procedure signature).Harmless := by
  refine (harmless_ofExcept _).bind fun key => harmless_get.bind fun i => ?_
  split
  · exact harmless_throw _
  · exact (harmless_ofExcept _).bind fun _ => (harmless_ofExcept _).bind fun _ =>
      harmless_declared _

theorem ok_of_ask {α : Type} {question : Inspection → Except Fault α} {i j : Inspection} {a : α}
    (returned : ask question i = .ok a j) : j = i ∧ question i = .ok a := by
  obtain ⟨seen, i, started, answered⟩ := ok_of_bind returned
  cases started
  exact ok_of_ofExcept answered

theorem knows_of_procedure {signature : Json} {i j : Inspection} {p : Procedure}
    (filed : i.program.Filed) (returned : procedure signature i = .ok p j) :
    j.program.Knows p := by
  obtain ⟨key, i, keyed, asked⟩ := ok_of_bind returned
  obtain ⟨rfl, -⟩ := ok_of_ofExcept keyed
  obtain ⟨seen, i, started, answered⟩ := ok_of_bind asked
  cases started
  cases refused : i.failure? .procedure key with
  | some fault =>
      simp only [refused] at answered
      cases answered
  | none =>
      simp only [refused] at answered
      obtain ⟨key, i, keyedAgain, named⟩ := ok_of_bind answered
      obtain ⟨rfl, -⟩ := ok_of_ofExcept keyedAgain
      obtain ⟨text, i, isText, found⟩ := ok_of_bind named
      obtain ⟨rfl, -⟩ := ok_of_ofExcept isText
      exact knows_of_declared filed found

theorem harmless_entryPoint (c : ClassDecl) : (entryPoint c).Harmless := by
  refine harmless_get.bind fun i => (harmless_ofExcept _).bind fun outcome => ?_
  cases outcome with
  | found p => exact harmless_pure _
  | missing => exact harmless_pure _
  | undeclared signature => exact (harmless_procedure _).bind fun p => harmless_pure _

theorem knows_of_entryPoint {c : ClassDecl} {i j : Inspection} {p : Procedure}
    (filed : i.program.Filed) (isClass : c ∈ i.program.classes.values)
    (returned : entryPoint c i = .ok (some p) j) : j.program.Knows p := by
  obtain ⟨seen, i, started, asked⟩ := ok_of_bind returned
  cases started
  obtain ⟨outcome, i, searched, answered⟩ := ok_of_bind asked
  obtain ⟨rfl, found⟩ := ok_of_ofExcept searched
  have searched : i.program.entrySearch c = .ok outcome := by
    unfold Inspection.answer at found
    split at found
    · cases found
    · exact found
  cases outcome with
  | found p =>
      cases answered
      exact filed.knows_of_entrySearch isClass searched
  | missing => cases answered
  | undeclared signature =>
      obtain ⟨p, i, looked, answered⟩ := ok_of_bind answered
      cases answered
      exact knows_of_procedure filed looked

end Inspecting

end CallWeight
