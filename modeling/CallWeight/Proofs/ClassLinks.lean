import CallWeight.Proofs.AssembledPrograms
import CallWeight.Proofs.Reordering

/-! # Links between classes

The questions about the class hierarchy walk along links that may dangle or lead round in circles. Here
the walks are compared with the links themselves: the search for the runnable interface finds whatever
can be reached by links through declared classes, and the superclasses of a class are listed up to where
the chain ends or comes back to a class that it has passed.
-/

namespace CallWeight

theorem Json.key_eq_of_equalsAtom {target : Json} {first second : Atom}
    (isFirst : target.equalsAtom first = true) (isSecond : target.equalsAtom second = true) :
    first.key = second.key := by
  cases target with
  | arr items | obj fields => cases isFirst
  | atom value =>
      simp only [equalsAtom, Atom.equals, Atom.sameKey, Bool.and_eq_true, decide_eq_true_eq]
        at isFirst isSecond
      exact isFirst.2.symm.trans isSecond.2

theorem Json.equalsAtom_congr {target : Json} {first second : Atom} (same : first.key = second.key) :
    target.equalsAtom first = target.equalsAtom second := by
  cases target with
  | arr items | obj fields => rfl
  | atom value => simp only [equalsAtom, Atom.equals, Atom.sameKey, same]

/-- Superclasses by their names. -/
def Ancestry.ofNames : List Atom → Ancestry
  | [] => .done
  | name :: rest => .link name (ofNames rest)

theorem Ancestry.reaches_ofNames (target : Json) (names : List Atom) :
    (ofNames names).reaches target = .ok (names.any fun name => target.equalsAtom name) := by
  induction names with
  | nil => rfl
  | cons name rest ih =>
      unfold ofNames reaches
      by_cases isTarget : target.equalsAtom name
      · simp [isTarget]
      · simp [isTarget, ih]

namespace Program

/-! ## Links -/

/-- Whether a declared class names another one as its superclass. -/
def Extends (program : Program) (name parent : Atom) : Prop :=
  ∃ c, program.class? name = some c ∧ c.superclass.truthy = true ∧ c.superclass = .atom parent

/-- Whether a declared class names another one as its superclass or as an interface. -/
def Links (program : Program) (name parent : Atom) : Prop :=
  program.Extends name parent ∨ ∃ c, program.class? name = some c ∧ .atom parent ∈ c.interfaces

/-- Whether the runnable interface is another class than this one and can be reached from it by links
    through declared classes. -/
def RunnableAbove (program : Program) (c : ClassDecl) : Prop :=
  program.config.runnableInterface.equalsAtom c.name = false ∧
    ∃ name, Relation.ReflTransGen program.Links c.name name ∧
      program.config.runnableInterface.equalsAtom name = true

/-- Whether the thread class is another class than this one and lies on its chain of superclasses. -/
def ThreadAbove (program : Program) (c : ClassDecl) : Prop :=
  program.config.threadClass.equalsAtom c.name = false ∧
    ∃ name, Relation.ReflTransGen program.Extends c.name name ∧
      program.config.threadClass.equalsAtom name = true

/-- Whether all superclasses and interfaces are called by values that can name a class. -/
def Linked (program : Program) : Prop :=
  ∀ c ∈ program.classes.values, ∀ parent ∈ c.parents, ∃ name, parent = .atom name

variable {program : Program}

theorem links_iff {name parent : Atom} :
    program.Links name parent ↔ ∃ c, program.class? name = some c ∧ .atom parent ∈ c.parents := by
  unfold Links Extends ClassDecl.parents
  constructor
  · rintro (⟨c, found, isNamed, isParent⟩ | ⟨c, found, isInterface⟩)
    · exact ⟨c, found, List.mem_append_left _ (by rw [if_pos isNamed, isParent]; simp)⟩
    · exact ⟨c, found, List.mem_append_right _ (List.mem_reverse.mpr isInterface)⟩
  · rintro ⟨c, found, listed⟩
    rcases List.mem_append.mp listed with isSuperclass | isInterface
    · by_cases isNamed : c.superclass.truthy
      · rw [if_pos isNamed, List.mem_singleton] at isSuperclass
        exact .inl ⟨c, found, isNamed, isSuperclass.symm⟩
      · rw [if_neg isNamed] at isSuperclass
        cases isSuperclass
    · exact .inr ⟨c, found, List.mem_reverse.mp isInterface⟩

theorem class?_congr {first second : Atom} (same : first.key = second.key) :
    program.class? first = program.class? second := by
  unfold class?
  rw [same]

theorem Extends.unique {name first second : Atom} (isFirst : program.Extends name first)
    (isSecond : program.Extends name second) : first = second := by
  obtain ⟨c, found, -, parent⟩ := isFirst
  obtain ⟨d, foundAgain, -, parentAgain⟩ := isSecond
  cases found.symm.trans foundAgain
  exact Json.atom.inj (parent.symm.trans parentAgain)

theorem Extends.congr {name other parent : Atom} (step : program.Extends name parent)
    (same : name.key = other.key) : program.Extends other parent := by
  unfold Extends at step ⊢
  rwa [class?_congr same] at step

/-- Classes are filed under their own names. -/
theorem Assembled.key_of_class? (assembled : program.Assembled) {name : Atom} {c : ClassDecl}
    (found : program.class? name = some c) : c.name.key = name.key := by
  induction assembled with
  | empty config => cases found
  | addClass _ _ added ih =>
      rcases (class?_of_addClass added).2.mp found with old | ⟨rfl, sameKey⟩
      · exact ih old
      · exact sameKey
  | procedure _ asked ih =>
      unfold class? at found ih
      rw [(procedure_spec asked).1.classes] at found
      exact ih found
  | @depthMap before _ p ih =>
      unfold class? at found ih
      rw [(before.tables_depthMap p).1] at found
      exact ih found

theorem subset_of_pick? {name : Atom} {remaining rest : List ClassDecl} {c : ClassDecl}
    (found : ClassDecl.pick? name remaining = some (c, rest)) : rest ⊆ remaining := fun _ inRest =>
  (ClassDecl.perm_of_pick? found).1.mem_iff.mpr (List.mem_cons_of_mem _ inRest)

/-- What is taken out of a list of declared classes is what the program finds under the name. -/
theorem Assembled.class?_of_pick? (assembled : program.Assembled) {name : Atom}
    {remaining rest : List ClassDecl} {c : ClassDecl} (declared : remaining ⊆ program.classes.values)
    (found : ClassDecl.pick? name remaining = some (c, rest)) : program.class? name = some c := by
  obtain ⟨perm, isNamed⟩ := ClassDecl.perm_of_pick? found
  have isClass := declared (perm.mem_iff.mpr List.mem_cons_self)
  rw [← class?_congr isNamed]
  exact assembled.tidy.found c isClass

/-! ## Searching everything above -/

section Search

/-- Whether a search for a target finds it here. The class where the search starts does not count. -/
def Hits (target : Json) (start name : Atom) : Prop :=
  target.equalsAtom name = true ∧ name.equals start = false

/-- Whether a search has nothing more to do with a name: it is not what is looked for, and if it is
    declared then the class has been passed. -/
structure Exhausted (program : Program) (target : Json) (start : Atom) (remaining : List ClassDecl)
    (name : Atom) : Prop where
  missed : ¬ Hits target start name
  passed : ∀ {c}, program.class? name = some c → c ∉ remaining

/-- What a search keeps true of the classes that are left and of the names on the stack. -/
structure Frontier (program : Program) (target : Json) (start : Atom) (remaining : List ClassDecl)
    (stack : List Json) : Prop where
  declared : remaining ⊆ program.classes.values
  distinct : remaining.Nodup
  named : ∀ item ∈ stack, ∃ name, item = .atom name
  /-- What a passed class names waits on the stack or is exhausted. -/
  ahead : ∀ {name c}, program.class? name = some c → c ∉ remaining →
    ∀ {parent}, program.Links name parent →
      .atom parent ∈ stack ∨ program.Exhausted target start remaining parent

open Relation (ReflTransGen)

/-- Whether what is looked for lies above a name on the stack. -/
def Finds (program : Program) (target : Json) (start : Atom) (stack : List Json) : Prop :=
  ∃ name, .atom name ∈ stack ∧ ∃ hit, ReflTransGen program.Links name hit ∧ Hits target start hit

variable {target : Json} {start name : Atom} {remaining : List ClassDecl} {stack : List Json}

theorem finds_cons : program.Finds target start (.atom name :: stack) ↔
    (∃ hit, ReflTransGen program.Links name hit ∧ Hits target start hit) ∨
      program.Finds target start stack := by
  simp [Finds]

/-- In place of a declared class that is not looked for, all that it names can be searched. -/
theorem finds_parents {c : ClassDecl} (found : program.class? name = some c)
    (missed : ¬ Hits target start name) :
    program.Finds target start (.atom name :: stack) ↔
      program.Finds target start (c.parents ++ stack) := by
  rw [finds_cons]
  constructor
  · rintro (⟨hit, path, isHit⟩ | ⟨other, inStack, above⟩)
    · rcases path.cases_head with rfl | ⟨parent, isLink, path⟩
      · exact absurd isHit missed
      · obtain ⟨d, foundAgain, isParent⟩ := links_iff.mp isLink
        cases found.symm.trans foundAgain
        exact ⟨parent, List.mem_append_left _ isParent, hit, path, isHit⟩
    · exact ⟨other, List.mem_append_right _ inStack, above⟩
  · rintro ⟨other, listed, hit, path, isHit⟩
    rcases List.mem_append.mp listed with isParent | inStack
    · exact .inl ⟨hit, path.head (links_iff.mpr ⟨c, found, isParent⟩), isHit⟩
    · exact .inr ⟨other, inStack, hit, path, isHit⟩

/-- What lies above an exhausted name lies above a name on the stack. -/
theorem Frontier.finds_exhausted (frontier : program.Frontier target start remaining stack)
    (exhausted : program.Exhausted target start remaining name) :
    program.Finds target start (.atom name :: stack) ↔ program.Finds target start stack := by
  rw [finds_cons, or_iff_right_iff_imp]
  rintro ⟨hit, path, isHit⟩
  induction path using ReflTransGen.head_induction_on with
  | refl => exact absurd isHit exhausted.missed
  | @head name parent isLink path ih =>
      obtain ⟨c, found, -⟩ := links_iff.mp isLink
      rcases frontier.ahead found (exhausted.passed found) isLink with waits | exhaustedParent
      · exact ⟨parent, waits, hit, path, isHit⟩
      · exact ih exhaustedParent

variable (assembled : program.Assembled)

include assembled

theorem Frontier.skip (frontier : program.Frontier target start remaining (.atom name :: stack))
    (missed : ¬ Hits target start name) (absent : ClassDecl.pick? name remaining = none) :
    program.Exhausted target start remaining name ∧ program.Frontier target start remaining stack := by
  have exhausted : program.Exhausted target start remaining name :=
    ⟨missed, fun found listed =>
      ClassDecl.pick?_eq_none.mp absent _ listed (assembled.key_of_class? found)⟩
  refine ⟨exhausted, { frontier with
    named := fun item listed => frontier.named item (List.mem_cons_of_mem _ listed)
    ahead := fun found isPassed parent isLink => ?_ }⟩
  rcases frontier.ahead found isPassed isLink with waits | exhaustedParent
  · rcases List.mem_cons.mp waits with same | inRest
    · exact .inr (Json.atom.inj same ▸ exhausted)
    · exact .inl inRest
  · exact .inr exhaustedParent

theorem Frontier.pass (linked : program.Linked)
    (frontier : program.Frontier target start remaining (.atom name :: stack))
    (missed : ¬ Hits target start name) {c : ClassDecl} {rest : List ClassDecl}
    (found : ClassDecl.pick? name remaining = some (c, rest)) :
    program.Frontier target start rest (c.parents ++ stack) := by
  obtain ⟨perm, -⟩ := ClassDecl.perm_of_pick? found
  have isFound := assembled.class?_of_pick? frontier.declared found
  obtain ⟨isGone, distinct⟩ := List.nodup_cons.mp (perm.nodup_iff.mp frontier.distinct)
  have fewer := subset_of_pick? found
  have isClass := frontier.declared (perm.mem_iff.mpr List.mem_cons_self)
  have exhausted : program.Exhausted target start rest name :=
    ⟨missed, fun again => Option.some.inj (isFound.symm.trans again) ▸ isGone⟩
  refine ⟨List.Subset.trans fewer frontier.declared, distinct, fun item listed => ?_, ?_⟩
  · rcases List.mem_append.mp listed with isParent | inStack
    · exact linked c isClass item isParent
    · exact frontier.named item (List.mem_cons_of_mem _ inStack)
  · intro other d foundOther isPassed parent isLink
    by_cases same : d = c
    · -- The class that is passed just now: all it names is on the stack.
      obtain ⟨e, foundAgain, isParent⟩ := links_iff.mp isLink
      cases same
      cases foundOther.symm.trans foundAgain
      exact .inl (List.mem_append_left _ isParent)
    · have passedBefore : d ∉ remaining := fun listed =>
        (List.mem_cons.mp (perm.mem_iff.mp listed)).elim same isPassed
      rcases frontier.ahead foundOther passedBefore isLink with waits | exhaustedParent
      · rcases List.mem_cons.mp waits with isName | inStack
        · exact .inr (Json.atom.inj isName ▸ exhausted)
        · exact .inl (List.mem_append_right _ inStack)
      · exact .inr ⟨exhaustedParent.missed, fun again inRest =>
          exhaustedParent.passed again (fewer inRest)⟩

/-- The search finds exactly what can be reached from the names on the stack. -/
theorem searchAbove_eq (linked : program.Linked)
    (frontier : program.Frontier target start remaining stack) :
    ∃ answer, searchAbove target start remaining stack = .ok answer ∧
      (answer = true ↔ program.Finds target start stack) := by
  induction size : remaining.length using Nat.strong_induction_on generalizing remaining stack with
  | h n ih =>
      induction stack with
      | nil => exact ⟨false, by rw [searchAbove], by simp [Finds]⟩
      | cons item stack ihStack =>
          obtain ⟨name, rfl⟩ := frontier.named item List.mem_cons_self
          have tested : (target.equalsAtom name && !name.equals start) = true ↔
              Hits target start name := by simp [Hits]
          by_cases isHit : Hits target start name
          · refine ⟨true, ?_, iff_of_true rfl ⟨name, List.mem_cons_self, name, .refl, isHit⟩⟩
            cases found : ClassDecl.pick? name remaining with
            | none => rw [searchAbove_of_none _ _ _ found, if_pos (tested.mpr isHit)]
            | some result => rw [searchAbove_of_some _ _ _ found, if_pos (tested.mpr isHit)]
          · have missed := mt tested.mp isHit
            cases found : ClassDecl.pick? name remaining with
            | none =>
                obtain ⟨exhausted, frontierRest⟩ := frontier.skip assembled isHit found
                obtain ⟨answer, returned, correct⟩ := ihStack frontierRest
                refine ⟨answer, ?_, correct.trans (frontierRest.finds_exhausted exhausted).symm⟩
                rw [searchAbove_of_none _ _ _ found, if_neg missed, returned]
            | some result =>
                obtain ⟨c, rest⟩ := result
                have isFound := assembled.class?_of_pick? frontier.declared found
                have shorter := ClassDecl.length_of_pick? found
                obtain ⟨answer, returned, correct⟩ :=
                  ih rest.length (by omega) (frontier.pass assembled linked isHit found) rfl
                refine ⟨answer, ?_, correct.trans (finds_parents isFound isHit).symm⟩
                rw [searchAbove_of_some _ _ _ found, if_neg missed, returned]

theorem implementsRunnable_eq (linked : program.Linked) (named : program.Named) {c : ClassDecl}
    (isClass : c ∈ program.classes.values) :
    ∃ answer, program.implementsRunnable c = .ok answer ∧
      (answer = true ↔ program.RunnableAbove c) := by
  have frontier : program.Frontier program.config.runnableInterface c.name program.classes.values
      [.atom c.name] :=
    { declared := List.Subset.refl _
      distinct := List.Nodup.of_map _ assembled.tidy.names
      named := fun item listed => ⟨c.name, List.mem_singleton.mp listed⟩
      ahead := fun found isPassed => absurd (OrderedMap.mem_values_of_get? found) isPassed }
  obtain ⟨answer, returned, correct⟩ := searchAbove_eq assembled linked frontier
  refine ⟨answer, returned, correct.trans ?_⟩
  obtain ⟨text, isText⟩ := named c isClass
  unfold RunnableAbove
  rw [isText]
  simp only [Finds, List.mem_singleton, Json.atom.injEq, exists_eq_left, Hits]
  constructor
  · rintro ⟨hit, path, isTarget, isOther⟩
    refine ⟨?_, hit, path, isTarget⟩
    by_contra isStart
    have sameKey := Json.key_eq_of_equalsAtom isTarget (Bool.eq_true_of_not_eq_false isStart)
    rw [Atom.eq_text_of_key sameKey] at isOther
    simp [Atom.equals, Atom.isNaN, Atom.sameKey] at isOther
  · rintro ⟨isOther, hit, path, isTarget⟩
    refine ⟨hit, path, isTarget, ?_⟩
    by_contra isStart
    rw [Atom.eq_of_equals_text (Bool.eq_true_of_not_eq_false isStart), isOther] at isTarget
    cases isTarget

end Search

/-! ## The superclasses of a class -/

section Chain

open Relation (ReflTransGen)

/-- What a walk up the superclasses lists from a class on, after it has seen others: each name extends the
    one before, the start of the walk is not among them, and no name extends one that was not seen. -/
structure Climb (program : Program) (start : Atom) (seen : List Atom) (last : Atom)
    (names : List Atom) : Prop where
  chain : (last :: names).IsChain program.Extends
  apart : ∀ name ∈ names, name.key ≠ start.key
  closed : ∀ name ∈ last :: names, ∀ parent, program.Extends name parent →
    ∃ other ∈ seen ++ names, other.key = parent.key

namespace Climb

variable {start last : Atom} {seen names : List Atom}

theorem stop (met : ∀ parent, program.Extends last parent → ∃ other ∈ seen, other.key = parent.key) :
    program.Climb start seen last [] where
  chain := .singleton _
  apart := nofun
  closed name isLast parent step := by
    rw [List.append_nil]
    exact met parent (List.mem_singleton.mp isLast ▸ step)

theorem step {name : Atom} (step : program.Extends last name) (isOther : name.key ≠ start.key)
    (climb : program.Climb start (seen ++ [name]) name names) :
    program.Climb start seen last (name :: names) where
  chain := List.isChain_cons_cons.mpr ⟨step, climb.chain⟩
  apart := List.forall_mem_cons.mpr ⟨isOther, climb.apart⟩
  closed other listed parent isStep := by
    rcases List.mem_cons.mp listed with rfl | above
    · exact ⟨name, by simp, by rw [step.unique isStep]⟩
    · obtain ⟨seenAs, isSeen, sameKey⟩ := climb.closed other above parent isStep
      exact ⟨seenAs, by simpa using isSeen, sameKey⟩

/-- The walk ends below a name that it has met before. -/
theorem back {name : Atom} (step : program.Extends last name)
    (met : ∃ other ∈ seen, other.key = name.key) : program.Climb start seen last [] :=
  stop fun _ isStep => step.unique isStep ▸ met

/-- The walk ends at a class that is not declared. -/
theorem leave {name : Atom} (step : program.Extends last name) (isOther : name.key ≠ start.key)
    (absent : program.class? name = none) : program.Climb start seen last [name] := by
  refine .step step isOther (stop ?_)
  rintro parent ⟨c, found, -⟩
  cases absent.symm.trans found

variable (climb : program.Climb start seen last names)

include climb

theorem reaches {name : Atom} (listed : name ∈ names) : ReflTransGen program.Extends last name := by
  have along {first : Atom} {rest : List Atom} (chain : (first :: rest).IsChain program.Extends)
      (inRest : name ∈ rest) : ReflTransGen program.Extends first name := by
    induction rest generalizing first with
    | nil => cases inRest
    | cons next others ih =>
        obtain ⟨step, chain⟩ := List.isChain_cons_cons.mp chain
        rcases List.mem_cons.mp inRest with rfl | inOthers
        · exact .single step
        · exact (ih chain inOthers).head step
  exact along climb.chain listed

end Climb

/-- However far a chain goes on, it only meets classes that a walk up from its first class lists. -/
theorem Climb.exists_listed {start : Atom} {names : List Atom}
    (climb : program.Climb start [start] start names) {name : Atom}
    (path : ReflTransGen program.Extends start name) :
    ∃ other ∈ start :: names, other.key = name.key := by
  induction path with
  | refl => exact ⟨start, List.mem_cons_self, rfl⟩
  | tail _ step ih =>
      obtain ⟨other, listed, sameKey⟩ := ih
      exact climb.closed other listed _ (step.congr sameKey.symm)

/-- Whether a walk has seen the names of all declared classes but those that remain. -/
def SeenBut (program : Program) (remaining : List ClassDecl) (seen : List Atom) : Prop :=
  ∀ c ∈ program.classes.values, c ∉ remaining → ∃ name ∈ seen, name.key = c.name.key

section SeenBut

variable {remaining rest : List ClassDecl} {seen : List Atom} {name : Atom} {c : ClassDecl}

theorem SeenBut.of_pick? (all : program.SeenBut remaining seen)
    (found : ClassDecl.pick? name remaining = some (c, rest)) :
    program.SeenBut rest (seen ++ [name]) := by
  obtain ⟨perm, isNamed⟩ := ClassDecl.perm_of_pick? found
  intro d isClass isPassed
  by_cases same : d = c
  · exact ⟨name, by simp, same ▸ isNamed.symm⟩
  · obtain ⟨other, isSeen, sameKey⟩ := all d isClass fun listed =>
      (List.mem_cons.mp (perm.mem_iff.mp listed)).elim same isPassed
    exact ⟨other, List.mem_append_left _ isSeen, sameKey⟩

theorem Assembled.exists_seen (assembled : program.Assembled) (all : program.SeenBut remaining seen)
    (absent : ClassDecl.pick? name remaining = none) (found : program.class? name = some c) :
    ∃ other ∈ seen, other.key = name.key := by
  have sameKey := assembled.key_of_class? found
  obtain ⟨other, isSeen, otherKey⟩ := all c (OrderedMap.mem_values_of_get? found) fun listed =>
    ClassDecl.pick?_eq_none.mp absent c listed sameKey
  exact ⟨other, isSeen, otherKey.trans sameKey⟩

end SeenBut

theorem Linked.exists_superclass (linked : program.Linked) {name : Atom} {c : ClassDecl}
    (found : program.class? name = some c) (isNamed : c.superclass.truthy = true) :
    ∃ parent, c.superclass = .atom parent := by
  refine linked c (OrderedMap.mem_values_of_get? found) c.superclass (List.mem_append_left _ ?_)
  rw [if_pos isNamed]
  exact List.mem_cons_self

theorem ancestryFrom_of_unnamed {start : Atom} {remaining : List ClassDecl} {superclass : Json}
    (unnamed : ¬ superclass.truthy = true) :
    program.ancestryFrom start remaining superclass = .done := by
  unfold ancestryFrom
  simp [unnamed]

theorem ancestryFrom_of_start {start name : Atom} {remaining : List ClassDecl}
    (isStart : name.key = start.key) :
    program.ancestryFrom start remaining (.atom name) = .done := by
  unfold ancestryFrom
  simp [Atom.sameKey, isStart]

variable (assembled : program.Assembled) (linked : program.Linked)

include assembled linked

/-- A walk up the superclasses ends at a class that names none, below one that it has seen, or at one that
    is not declared. -/
theorem exists_climb {start last : Atom} {c : ClassDecl} {remaining : List ClassDecl}
    {seen : List Atom} (isLast : program.class? last = some c)
    (declared : remaining ⊆ program.classes.values) (startSeen : start ∈ seen)
    (all : program.SeenBut remaining seen) :
    ∃ names, program.ancestryFrom start remaining c.superclass = .ofNames names ∧
      program.Climb start seen last names := by
  induction size : remaining.length using Nat.strong_induction_on
    generalizing remaining last c seen with
  | h n ih =>
      by_cases isNamed : c.superclass.truthy
      case neg =>
        refine ⟨[], ancestryFrom_of_unnamed isNamed, .stop ?_⟩
        rintro parent ⟨d, found, isNamedAgain, -⟩
        cases isLast.symm.trans found
        exact absurd isNamedAgain isNamed
      case pos =>
        obtain ⟨name, isName⟩ := linked.exists_superclass isLast isNamed
        have step : program.Extends last name := ⟨c, isLast, isNamed, isName⟩
        rw [isName] at isNamed ⊢
        by_cases isStart : name.key = start.key
        case pos =>
          exact ⟨[], ancestryFrom_of_start isStart, .back step ⟨start, startSeen, isStart.symm⟩⟩
        case neg =>
          have isOther : name.sameKey start = false := by simpa [Atom.sameKey] using isStart
          cases found : ClassDecl.pick? name remaining with
          | some result =>
              obtain ⟨d, rest⟩ := result
              have shorter := ClassDecl.length_of_pick? found
              obtain ⟨names, listed, climb⟩ := ih rest.length (by omega)
                (assembled.class?_of_pick? declared found)
                (List.Subset.trans (subset_of_pick? found) declared)
                (List.mem_append_left [name] startSeen) (all.of_pick? found) rfl
              refine ⟨name :: names, ?_, climb.step step isStart⟩
              rw [ancestryFrom_of_some _ _ found, listed]
              simp [isNamed, isOther, Ancestry.ofNames]
          | none =>
              rw [ancestryFrom_of_none _ _ found]
              cases isDeclared : program.class? name with
              | some d =>
                  refine ⟨[], ?_, .back step (assembled.exists_seen all found isDeclared)⟩
                  simp [Ancestry.ofNames]
              | none =>
                  refine ⟨[name], ?_, .leave step isStart isDeclared⟩
                  simp [isNamed, isOther, Ancestry.ofNames]

/-- The superclasses of a class as they are listed. -/
theorem exists_climb_ancestry {c : ClassDecl} (isClass : c ∈ program.classes.values) :
    ∃ names, program.ancestry c = .ofNames names ∧ program.Climb c.name [c.name] c.name names :=
  exists_climb assembled linked (assembled.tidy.found c isClass) (List.Subset.refl _)
    List.mem_cons_self fun _ isClass isPassed => absurd isClass isPassed

theorem isThreadSubclass_eq {c : ClassDecl} (isClass : c ∈ program.classes.values) :
    ∃ answer, program.isThreadSubclass c = .ok answer ∧ (answer = true ↔ program.ThreadAbove c) := by
  obtain ⟨names, listed, climb⟩ := exists_climb_ancestry assembled linked isClass
  refine ⟨_, by rw [isThreadSubclass, listed, Ancestry.reaches_ofNames], ?_⟩
  rw [List.any_eq_true]
  constructor
  · rintro ⟨name, isListed, isThread⟩
    refine ⟨?_, name, climb.reaches isListed, isThread⟩
    by_contra isOwn
    exact climb.apart name isListed
      (Json.key_eq_of_equalsAtom isThread (Bool.eq_true_of_not_eq_false isOwn))
  · rintro ⟨isOther, name, path, isThread⟩
    obtain ⟨other, isListed, sameKey⟩ := climb.exists_listed path
    have isThread := (Json.equalsAtom_congr sameKey).trans isThread
    rcases List.mem_cons.mp isListed with rfl | above
    · cases isOther.symm.trans isThread
    · exact ⟨other, above, isThread⟩

end Chain

end Program

end CallWeight
