import CallWeight.Proofs.ClassLinks

/-! # What runs when a class is started

The entry of a class is the entry method of the nearest class on its chain of superclasses that declares
one, as long as the chain leads through declared classes. Where it leads to the thread class, which need
not be declared, the entry is the procedure that the thread class would have, if its signature can be
read. The runnable entries are the entries of those classes that have the runnable interface or the thread
class above them.
-/

namespace CallWeight

open Relation (ReflTransGen)

/-! ## Signatures that can be read -/

namespace Signature

variable {name subsignature : Text}

/-- A signature can be read even if the class name holds a separator, as long as it does not start with
    one. -/
theorem exists_split_make (hasName : name ≠ []) (plain : ¬ (": " : Text) <+: name)
    (hasRest : subsignature ≠ []) : ∃ parts, split (make name subsignature) = .ok parts := by
  obtain ⟨before, more, after, rfl, whole, cut⟩ := exists_splitFirst_make name subsignature
  have hasBefore : before ≠ [] := by
    rintro rfl
    exact (eq_nil_or_prefix_of_append_eq whole).elim hasName plain
  have hasAfter : after ≠ [] := by
    rintro rfl
    have sameLength := congrArg List.length whole
    have := List.length_pos_iff.mpr hasRest
    simp only [List.length_append, List.length_nil] at sameLength
    omega
  have parts := splitInside_eq_some_iff.mpr ⟨cut, hasBefore, hasAfter⟩
  exact ⟨(before, after), by simp only [split, inside?_make, Option.bind_some, parts]⟩

theorem split_make_of_prefix (isPrefix : (": " : Text) <+: name) :
    split (make name subsignature) = .error (.format (.malformedSignature (make name subsignature))) := by
  obtain ⟨rest, rfl⟩ := isPrefix
  simp [split, inside?_make, splitInside, separator_eq, Text.splitFirst]

end Signature

namespace Program

variable {program : Program} {entry : Atom}

/-! ## The search for an entry -/

/-- Whether a declared class passes the search for an entry on to its superclass, because it does not
    declare one. -/
def PassesOn (program : Program) (entry name parent : Atom) : Prop :=
  program.Extends name parent ∧ ∀ c, program.class? name = some c → c.method? entry = none

/-- Whether a method is the entry of the nearest class on the chain of superclasses that declares one. All
    classes before it are declared, too. -/
def InheritsEntry (program : Program) (entry : Atom) (c : ClassDecl) (p : Procedure) : Prop :=
  ∃ name d, ReflTransGen (program.PassesOn entry) c.name name ∧ program.class? name = some d ∧
    d.method? entry = some p

/-- Whether the chain of superclasses leads to a class that is not declared, and no class before it
    declares an entry. -/
def LeadsOut (program : Program) (entry : Atom) (c : ClassDecl) (name : Atom) : Prop :=
  ReflTransGen (program.PassesOn entry) c.name name ∧ program.class? name = none

/-- How the search ends at a class that does not pass it on. -/
inductive EndsAt (program : Program) (entry name : Atom) : EntrySearch → Prop
  | declared {c : ClassDecl} {p : Procedure} (found : program.class? name = some c)
      (declares : c.method? entry = some p) : EndsAt program entry name (.found p)
  | thread (absent : program.class? name = none)
      (isThread : program.config.threadClass.equalsAtom name = true) :
      EndsAt program entry name (.undeclared (Signature.make name.display entry.display))
  | unknown (absent : program.class? name = none)
      (isOther : program.config.threadClass.equalsAtom name = false) :
      EndsAt program entry name .missing

theorem EndsAt.unique {name : Atom} {first second : EntrySearch}
    (isFirst : program.EndsAt entry name first) (isSecond : program.EndsAt entry name second) :
    first = second := by
  cases isFirst <;> cases isSecond <;> simp_all

theorem EndsAt.not_silent {name : Atom} {outcome : EntrySearch}
    (ends : program.EndsAt entry name outcome) {c : ClassDecl} (found : program.class? name = some c) :
    c.method? entry ≠ none := by
  cases ends <;> simp_all

theorem EndsAt.not_passesOn {name parent : Atom} {outcome : EntrySearch}
    (ends : program.EndsAt entry name outcome) : ¬ program.PassesOn entry name parent := by
  rintro ⟨⟨c, found, -⟩, silent⟩
  exact ends.not_silent found (silent c found)

theorem PassesOn.unique : Relator.RightUnique (program.PassesOn entry) :=
  fun _ _ _ first second => first.1.unique second.1

/-- A search that is passed on ends at one class at most. -/
theorem EndsAt.unique_end {name first second : Atom} {outcome other : EntrySearch}
    (path : ReflTransGen (program.PassesOn entry) name first)
    (pathOther : ReflTransGen (program.PassesOn entry) name second)
    (ends : program.EndsAt entry first outcome) (endsOther : program.EndsAt entry second other) :
    outcome = other := by
  have same : first = second := by
    rcases ReflTransGen.total_of_right_unique PassesOn.unique path pathOther with onward | onward
    · rcases onward.cases_head with same | ⟨next, step, -⟩
      · exact same
      · exact absurd step ends.not_passesOn
    · rcases onward.cases_head with same | ⟨next, step, -⟩
      · exact same.symm
      · exact absurd step endsOther.not_passesOn
  subst same
  exact ends.unique endsOther

/-- Along a list of superclasses, the search ends at one of them, or all of them pass it on. -/
theorem entryAbove_ofNames {last : Atom} {names : List Atom}
    (chain : (last :: names).IsChain program.Extends)
    (silent : ∀ c, program.class? last = some c → c.method? entry = none) :
    ∃ outcome, program.entryAbove entry (.ofNames names) = .ok outcome ∧
      ((∃ name, ReflTransGen (program.PassesOn entry) last name ∧
          program.EndsAt entry name outcome) ∨
        outcome = .missing ∧
          ∀ name ∈ names, ∃ c, program.class? name = some c ∧ c.method? entry = none) := by
  induction names generalizing last with
  | nil => exact ⟨.missing, rfl, .inr ⟨rfl, by simp⟩⟩
  | cons name rest ih =>
      obtain ⟨step, chain⟩ := List.isChain_cons_cons.mp chain
      have passed : program.PassesOn entry last name := ⟨step, silent⟩
      unfold Ancestry.ofNames entryAbove
      cases found : program.class? name with
      | some c =>
          cases declares : c.method? entry with
          | some p =>
              exact ⟨.found p, by simp [declares],
                .inl ⟨name, .single passed, .declared found declares⟩⟩
          | none =>
              obtain ⟨outcome, returned, ends⟩ := ih chain fun d again =>
                Option.some.inj (found.symm.trans again) ▸ declares
              refine ⟨outcome, by simpa [declares] using returned, ends.imp ?_ ?_⟩
              · rintro ⟨other, path, ends⟩
                exact ⟨other, path.head passed, ends⟩
              · rintro ⟨isMissing, all⟩
                exact ⟨isMissing, List.forall_mem_cons.mpr ⟨⟨c, found, declares⟩, all⟩⟩
      | none =>
          cases isThread : program.config.threadClass.equalsAtom name with
          | true => exact ⟨_, by simp, .inl ⟨name, .single passed, .thread found isThread⟩⟩
          | false => exact ⟨.missing, by simp, .inl ⟨name, .single passed, .unknown found isThread⟩⟩

section Entry

variable {subsignature : Text} (isEntry : program.config.entrySubsignature = .text subsignature)

include isEntry

theorem entrySearch_eq (c : ClassDecl) :
    program.entrySearch c =
      match c.method? (.text subsignature) with
      | some p => .ok (.found p)
      | none => program.entryAbove (.text subsignature) (program.ancestry c) := by
  unfold entrySearch
  rw [isEntry]
  rfl

variable (assembled : program.Assembled) (linked : program.Linked) {c : ClassDecl}
  (isClass : c ∈ program.classes.values)

include assembled linked isClass

/-- The search for the entry of a class follows its chain of superclasses to where it ends, and finds
    nothing if it never ends. -/
theorem entrySearch_cases :
    (∃ name outcome, ReflTransGen (program.PassesOn (.text subsignature)) c.name name ∧
        program.EndsAt (.text subsignature) name outcome ∧ program.entrySearch c = .ok outcome) ∨
      (∀ name outcome, ReflTransGen (program.PassesOn (.text subsignature)) c.name name →
          ¬ program.EndsAt (.text subsignature) name outcome) ∧
        program.entrySearch c = .ok .missing := by
  have found := assembled.tidy.found c isClass
  rw [entrySearch_eq isEntry]
  cases declares : c.method? (.text subsignature) with
  | some p => exact .inl ⟨c.name, .found p, .refl, .declared found declares, rfl⟩
  | none =>
      obtain ⟨names, listed, climb⟩ := exists_climb_ancestry assembled linked isClass
      have silentHere (d : ClassDecl) (again : program.class? c.name = some d) :
          d.method? (.text subsignature) = none :=
        Option.some.inj (found.symm.trans again) ▸ declares
      obtain ⟨outcome, returned, ends⟩ := entryAbove_ofNames climb.chain silentHere
      dsimp only
      rw [listed, returned]
      rcases ends with ⟨name, path, ends⟩ | ⟨rfl, silent⟩
      · exact .inl ⟨name, outcome, path, ends, rfl⟩
      · -- The chain goes round in a circle of classes that are all listed.
        refine .inr ⟨fun name outcome path ends => ?_, rfl⟩
        obtain ⟨other, isListed, sameKey⟩ :=
          climb.exists_listed (path.lift id fun _ _ step => step.1)
        rcases List.mem_cons.mp isListed with rfl | above
        · exact ends.not_silent ((class?_congr sameKey.symm).trans found) declares
        · obtain ⟨d, foundOther, noEntry⟩ := silent other above
          exact ends.not_silent ((class?_congr sameKey.symm).trans foundOther) noEntry

theorem entrySearch_of_endsAt {name : Atom} {outcome : EntrySearch}
    (path : ReflTransGen (program.PassesOn (.text subsignature)) c.name name)
    (ends : program.EndsAt (.text subsignature) name outcome) :
    program.entrySearch c = .ok outcome := by
  rcases entrySearch_cases isEntry assembled linked isClass with
    ⟨other, found, pathOther, endsOther, searched⟩ | ⟨never, -⟩
  · rw [searched, EndsAt.unique_end path pathOther ends endsOther]
  · exact absurd ends (never name outcome path)

end Entry

/-! ## The procedure of the thread class -/

/-- Whether the program has or can make the procedure that a class declares under a subsignature. -/
def EntryReadable (program : Program) (name subsignature : Text) : Prop :=
  program.procedures.contains (Signature.make name subsignature) = true ∨ ¬ (": " : Text) <+: name

/-- Only a class with a name can be extended. -/
theorem LeadsOut.nonempty {entry : Atom} {c : ClassDecl} {name : Text}
    (leads : program.LeadsOut entry c (.text name)) (found : program.class? c.name = some c) :
    name ≠ [] := by
  rintro rfl
  obtain ⟨path, absent⟩ := leads
  rcases path.cases_tail with same | ⟨last, -, ⟨d, -, isNamed, isParent⟩, -⟩
  · rw [same, found] at absent
    cases absent
  · rw [isParent] at isNamed
    cases isNamed

theorem EntryReadable.exists_names {name subsignature : Text}
    (readable : program.EntryReadable name subsignature) (hasName : name ≠ [])
    (hasRest : subsignature ≠ []) :
    ∃ p, program.Names (Signature.make name subsignature) p := by
  rcases readable with held | plain
  · obtain ⟨p, held⟩ := Option.isSome_iff_exists.mp held
    refine ⟨p, ?_⟩
    unfold Names
    rw [map_fst_procedure, held]
  · obtain ⟨parts, splits⟩ := Signature.exists_split_make hasName plain hasRest
    exact program.exists_names splits

theorem procedure_of_not_readable {name subsignature : Text}
    (unreadable : ¬ program.EntryReadable name subsignature) :
    (program.procedure (Signature.make name subsignature)).map Prod.fst =
      .error (.format (.malformedSignature (Signature.make name subsignature))) := by
  obtain ⟨absent, isPrefix⟩ := not_or.mp unreadable
  have absent : program.procedures.get? (Signature.make name subsignature) = none :=
    Option.not_isSome_iff_eq_none.mp absent
  rw [map_fst_procedure, absent]
  simp only [Procedure.phantom, Signature.split_make_of_prefix (not_not.mp isPrefix)]
  rfl

/-! ## Entries -/

theorem equalsAtom_threadClass {thread : Text} (isThread : program.config.threadClass = .text thread) :
    program.config.threadClass.equalsAtom (.text thread) = true := by
  rw [isThread]
  simp [Json.equalsAtom, Atom.equals, Atom.isNaN, Atom.sameKey]

section Entries

variable (assembled : program.Assembled) (linked : program.Linked) {c : ClassDecl}
  (isClass : c ∈ program.classes.values)

include assembled linked isClass

theorem isRunnable_eq (named : program.Named) :
    ∃ answer, program.isRunnable c = .ok answer ∧
      (answer = true ↔ program.RunnableAbove c ∨ program.ThreadAbove c) := by
  obtain ⟨implements, asked, isImplementer⟩ := implementsRunnable_eq assembled linked named isClass
  obtain ⟨descends, askedNext, isDescendant⟩ := isThreadSubclass_eq assembled linked isClass
  unfold isRunnable
  rw [asked, askedNext]
  cases implements with
  | true => exact ⟨true, rfl, iff_of_true rfl (.inl (isImplementer.mp rfl))⟩
  | false =>
      have isNone : ¬ program.RunnableAbove c := fun above => by cases isImplementer.mpr above
      exact ⟨descends, rfl, by rw [isDescendant, or_iff_right isNone]⟩

variable {thread subsignature : Text} (isThread : program.config.threadClass = .text thread)
  (isEntry : program.config.entrySubsignature = .text subsignature)

include isEntry

theorem entryPoint_of_inherits {p : Procedure}
    (inherits : program.InheritsEntry (.text subsignature) c p) :
    program.entryPoint c = .ok (some p) := by
  obtain ⟨name, d, path, found, declares⟩ := inherits
  unfold entryPoint
  rw [entrySearch_of_endsAt isEntry assembled linked isClass path (.declared found declares)]
  rfl

include isThread

theorem entryPoint_of_thread
    (leads : program.LeadsOut (.text subsignature) c (.text thread)) :
    program.entryPoint c =
      ((program.procedure (Signature.make thread subsignature)).map Prod.fst).map some := by
  unfold entryPoint
  rw [entrySearch_of_endsAt isEntry assembled linked isClass leads.1
    (.thread leads.2 (equalsAtom_threadClass isThread))]
  rfl

theorem entryPoint_of_neither (silent : ∀ p, ¬ program.InheritsEntry (.text subsignature) c p)
    (elsewhere : ¬ program.LeadsOut (.text subsignature) c (.text thread)) :
    program.entryPoint c = .ok none := by
  have isMissing : program.entrySearch c = .ok .missing := by
    rcases entrySearch_cases isEntry assembled linked isClass with
      ⟨name, outcome, path, ends, searched⟩ | ⟨-, searched⟩
    · cases ends with
      | declared found declares => exact absurd ⟨name, _, path, found, declares⟩ (silent _)
      | thread absent isTarget =>
          have sameKey := Json.key_eq_of_equalsAtom isTarget (equalsAtom_threadClass isThread)
          rw [Atom.eq_text_of_key sameKey] at path absent
          exact absurd ⟨path, absent⟩ elsewhere
      | unknown absent isOther => exact searched
    · exact searched
  unfold entryPoint
  rw [isMissing]
  rfl

end Entries

end Program

namespace Dispatch

/-- The entries of a list of classes, in their order. -/
theorem entriesOf_eq {start i : Inspection} (noFailures : start.failures = []) (config : Config)
    (classes : List ClassDecl) (alike : start.Alike i) :
    (entriesOf config classes i).1 =
      (classes.filter fun c => !c.isInterface).filterMap fun c =>
        (start.program.threadEntry c).toOption.join := by
  induction classes generalizing i with
  | nil => rfl
  | cons c rest ih =>
      unfold entriesOf
      by_cases isInterface : c.isInterface
      · simp [isInterface, ih alike]
      · have agrees := (steady_entryOf c).agrees alike
        have entry : (classEntry config c i).1 = (start.program.threadEntry c).toOption.join := by
          rw [← attempt_entryOf noFailures]
          cases answer : ((entryOf c).attempt i).1 with
          | ok entry =>
              rw [(classEntry_of_ok answer).1, (agrees entry).mp answer]
              rfl
          | error fault =>
              rw [(classEntry_of_error answer).1]
              cases first : ((entryOf c).attempt start).1 with
              | ok entry => cases answer.symm.trans ((agrees entry).mpr first)
              | error fault => rfl
        rw [if_neg isInterface]
        dsimp only
        rw [ih (alike.trans (alike_classEntry config c i)), entry]
        simp only [isInterface, List.filter_cons, Bool.not_false, if_true, List.filterMap_cons]
        cases (start.program.threadEntry c).toOption.join <;> rfl

end Dispatch

namespace Program

variable {program : Program}

open Classical in
theorem threadEntry_eq (assembled : program.Assembled) (linked : program.Linked)
    (named : program.Named) {c : ClassDecl} (isClass : c ∈ program.classes.values) :
    program.threadEntry c =
      if program.RunnableAbove c ∨ program.ThreadAbove c then program.entryPoint c else .ok none := by
  obtain ⟨answer, asked, isRunnable⟩ := isRunnable_eq assembled linked isClass named
  unfold threadEntry
  rw [asked]
  cases answer with
  | true => exact (if_pos (isRunnable.mp rfl)).symm
  | false => exact (if_neg fun above => by cases isRunnable.mpr above).symm

end Program

open Classical in
/-- Whatever the links between the classes are, the hierarchy queries return and follow them: a class
    implements the runnable interface or descends from the thread class if that is another class above it;
    its entry is the nearest one that a declared superclass provides, or that of the thread class where the
    chain leads to it and its signature can be read, and otherwise there is none. The runnable entries are
    those of the concrete application classes with the interface or the thread class above them, in the
    order of the classes. -/
theorem runnable_discovery_follows_links {i : Inspection} {thread entry : Text}
    (assembled : i.program.Assembled) (named : i.program.Named) (linked : i.program.Linked)
    (noFailures : i.failures = []) (isThread : i.program.config.threadClass = .text thread)
    (isEntry : i.program.config.entrySubsignature = .text entry) (nonempty : entry ≠ []) :
    (∀ c ∈ i.program.classes.values,
      (∃ answer, i.implementsRunnable c = .ok answer ∧
        (answer = true ↔ i.program.RunnableAbove c)) ∧
      (∃ answer, i.isThreadSubclass c = .ok answer ∧ (answer = true ↔ i.program.ThreadAbove c)) ∧
      (∀ p, i.program.InheritsEntry (.text entry) c p →
        ((Inspecting.entryPoint c).attempt i).1 = .ok (some p)) ∧
      (i.program.LeadsOut (.text entry) c (.text thread) →
        (i.program.EntryReadable thread entry → ∃ p, p.signature = Signature.make thread entry ∧
          i.program.Names (Signature.make thread entry) p ∧
          ((Inspecting.entryPoint c).attempt i).1 = .ok (some p)) ∧
        (¬ i.program.EntryReadable thread entry → ((Inspecting.entryPoint c).attempt i).1 =
          .error (.format (.malformedSignature (Signature.make thread entry))))) ∧
      ((∀ p, ¬ i.program.InheritsEntry (.text entry) c p) →
        ¬ i.program.LeadsOut (.text entry) c (.text thread) →
        ((Inspecting.entryPoint c).attempt i).1 = .ok none)) ∧
    ∀ config, (Dispatch.runnableEntries config i).1 =
      (i.program.applicationClasses.filter fun c => c.isInterface = false ∧
        (i.program.RunnableAbove c ∨ i.program.ThreadAbove c)).filterMap fun c =>
          ((Inspecting.entryPoint c).attempt i).1.toOption.join := by
  have answers {α : Type} (query : Query) (subject : Atom) (value : Except Fault α) :
      i.answer query subject value = value :=
    Inspection.answer_of_noFailures noFailures query subject value
  simp only [Inspecting.attempt_entryPoint noFailures]
  refine ⟨fun c isClass => ⟨?_, ?_, ?_, ?_, ?_⟩, fun config => ?_⟩
  · simp only [Inspection.implementsRunnable, answers]
    exact Program.implementsRunnable_eq assembled linked named isClass
  · simp only [Inspection.isThreadSubclass, answers]
    exact Program.isThreadSubclass_eq assembled linked isClass
  · exact fun p => Program.entryPoint_of_inherits assembled linked isClass isEntry
  · intro leads
    have hasName := leads.nonempty (assembled.tidy.found c isClass)
    rw [Program.entryPoint_of_thread assembled linked isClass isThread isEntry leads]
    refine ⟨fun readable => ?_, fun unreadable => ?_⟩
    · obtain ⟨p, names⟩ := readable.exists_names hasName nonempty
      exact ⟨p, names.signature_of_filed assembled.tidy.filed, names, congrArg (·.map some) names⟩
    · rw [Program.procedure_of_not_readable unreadable]
      rfl
  · exact Program.entryPoint_of_neither assembled linked isClass isThread isEntry
  · rw [Dispatch.runnableEntries, Dispatch.entriesOf_eq noFailures config _ (.refl i),
      List.filterMap_filter, List.filterMap_filter]
    refine List.filterMap_congr fun c listed => ?_
    rw [Program.threadEntry_eq assembled linked named (List.mem_filter.mp listed).1]
    by_cases isInterface : c.isInterface
    · simp [isInterface]
    · by_cases isRunnable : i.program.RunnableAbove c ∨ i.program.ThreadAbove c
      · simp [isInterface, isRunnable]
      · simp [isInterface, isRunnable, Except.toOption]

/-! Two classes that extend each other. -/

namespace Program

def sampleEntry : Procedure where
  declaringClass := .text "app.Base"
  subsignature := .text "void run()"
  body := some []

def sampleJob : ClassDecl where
  name := .text "app.Job"
  superclass := .text "app.Base"

def sampleBase : ClassDecl where
  name := .text "app.Base"
  superclass := .text "app.Job"
  interfaces := [.text "java.lang.Runnable"]
  methods := [sampleEntry]

def sampleCycle : Program where
  classes := (OrderedMap.empty.insert sampleJob.name sampleJob).insert sampleBase.name sampleBase
  procedures := fileAll .empty [sampleEntry]

theorem assembled_sampleCycle : sampleCycle.Assembled := by
  have loaded : [sampleJob, sampleBase].foldlM addClass {} = .ok sampleCycle := by cbv
  refine Assembled.addClasses (.empty {}) (fun c isClass => ?_) loaded
  fin_cases isClass
  · exact ⟨sampleJob, [], by cbv⟩
  · exact ⟨sampleBase, [sampleEntry], by cbv⟩

theorem classes_sampleCycle : sampleCycle.classes.values = [sampleJob, sampleBase] := by cbv

theorem linked_sampleCycle : sampleCycle.Linked := by
  have parentsJob : sampleJob.parents = [.text "app.Base"] := by cbv
  have parentsBase : sampleBase.parents = [.text "app.Job", .text "java.lang.Runnable"] := by cbv
  intro c isClass parent isParent
  rw [classes_sampleCycle] at isClass
  rcases List.mem_pair.mp isClass with rfl | rfl
  · rw [parentsJob] at isParent
    exact ⟨_, List.mem_singleton.mp isParent⟩
  · rw [parentsBase] at isParent
    rcases List.mem_pair.mp isParent with rfl | rfl
    · exact ⟨_, rfl⟩
    · exact ⟨_, rfl⟩

end Program

open Program in
/-- A class without an entry of its own runs that of its superclass, which extends it in turn. -/
theorem runnable_discovery_follows_links_of_cycle :
    Inspection.implementsRunnable { program := sampleCycle } sampleJob = .ok true ∧
      ((Inspecting.entryPoint sampleJob).attempt { program := sampleCycle }).1 =
        .ok (some sampleEntry) := by
  have named : sampleCycle.Named := by
    intro c isClass
    rw [classes_sampleCycle] at isClass
    rcases List.mem_pair.mp isClass with rfl | rfl
    · exact ⟨_, rfl⟩
    · exact ⟨_, rfl⟩
  have isClass : sampleJob ∈ sampleCycle.classes.values := by
    rw [classes_sampleCycle]
    exact List.mem_cons_self
  obtain ⟨queries, -⟩ := runnable_discovery_follows_links (i := { program := sampleCycle })
    assembled_sampleCycle named linked_sampleCycle rfl rfl rfl (by decide)
  obtain ⟨⟨answer, asked, correct⟩, -, inherits, -⟩ := queries sampleJob isClass
  have foundJob : sampleCycle.class? sampleJob.name = some sampleJob := by cbv
  have foundBase : sampleCycle.class? sampleBase.name = some sampleBase := by cbv
  have step : sampleCycle.Extends sampleJob.name sampleBase.name :=
    ⟨sampleJob, foundJob, by decide, rfl⟩
  have isRunnable : sampleCycle.RunnableAbove sampleJob :=
    ⟨by decide, .text "java.lang.Runnable", .tail (.single (.inl step))
      (.inr ⟨sampleBase, foundBase, List.mem_cons_self⟩), by decide⟩
  have passes : sampleCycle.PassesOn (.text "void run()") sampleJob.name sampleBase.name :=
    ⟨step, fun c found => by
      cases foundJob.symm.trans found
      rfl⟩
  refine ⟨by rw [asked, correct.mpr isRunnable], inherits sampleEntry ?_⟩
  exact ⟨sampleBase.name, sampleBase, .single passes, foundBase, rfl⟩

namespace Program

/-- Extends the thread class, which has a name that no signature can begin with. -/
def sampleHeir : ClassDecl where
  name := .text "app.W"
  superclass := .text ": x"

def sampleUnreadable : Program where
  config := { threadClass := .text ": x" }
  classes := OrderedMap.empty.insert sampleHeir.name sampleHeir

/-- The chain of superclasses leads to the thread class, but there is no procedure to run. -/
theorem unreadable_thread_class_has_no_entry :
    sampleUnreadable.LeadsOut (.text "void run()") sampleHeir (.text ": x") ∧
      ((Inspecting.entryPoint sampleHeir).attempt { program := sampleUnreadable }).1 =
        .error (.format (.malformedSignature "<: x: void run()>")) ∧
      (Dispatch.runnableEntries {} { program := sampleUnreadable }).1 = [] := by
  have found : sampleUnreadable.class? sampleHeir.name = some sampleHeir := by cbv
  have passes : sampleUnreadable.PassesOn (.text "void run()") sampleHeir.name (.text ": x") := by
    refine ⟨⟨sampleHeir, found, by decide, rfl⟩, fun c again => ?_⟩
    cases found.symm.trans again
    rfl
  have listed : (sampleUnreadable.applicationClasses.filter fun c => !c.isInterface) =
      [sampleHeir] := by cbv
  have refused : (sampleUnreadable.threadEntry sampleHeir).toOption.join = none := by cbv
  refine ⟨⟨.single passes, by cbv⟩, by cbv, ?_⟩
  rw [Dispatch.runnableEntries, Dispatch.entriesOf_eq rfl _ _ (.refl _), listed]
  simp [refused]

end Program

end CallWeight
