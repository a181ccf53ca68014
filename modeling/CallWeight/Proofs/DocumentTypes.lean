import CallWeight.Config.Document
import CallWeight.Proofs.ClassReading
import CallWeight.Proofs.Judgements

/-! # Documents whose values are of the right kinds

The readers of programs and configurations refuse much, but not everything: several slots are used
as sequences, as keys or as texts without a check, and a value of another kind there ends the reading
with a fault of its own. The predicates here say, slot by slot, which kinds of values a document has
to hold. Whatever fails about a document of these kinds is a refusal of the reader, and a fault of
any other document is a refusal or one of the few faults of unchecked values.
-/

namespace CallWeight

/-! ## Kinds of values -/

namespace Json

def isNull : Json → Bool
  | .atom .null => true
  | _ => false

def isText : Json → Bool
  | .atom (.text _) => true
  | _ => false

theorem of_isNull_or {value : Json} {b : Bool} (given : value = .null → False)
    (either : (value.isNull || b) = true) : b = true := by
  rcases Bool.or_eq_true_iff.mp either with absent | holds
  · unfold isNull at absent
    split at absent
    · exact (given rfl).elim
    · cases absent
  · exact holds

/-- Whether a value can be looked up in a table. -/
def isKey : Json → Bool
  | .atom _ => true
  | _ => false

theorem isKey_of_isText {value : Json} (isText : value.isText = true) : value.isKey = true := by
  cases value with
  | atom value => rfl
  | arr items | obj fields => cases isText

/-- Whether a value can be used as a sequence all of whose items pass a check. -/
def allItems (fits : Json → Bool) (value : Json) : Bool :=
  match value.items with
  | .ok items => items.all fits
  | .error _ => false

def isSequence (value : Json) : Bool := value.allItems fun _ => true

/-- Whether a field is left out or passes a check. -/
def fieldFits (key : Text) (fits : Json → Bool) (document : Json) : Bool :=
  (document.field? key).all fits

end Json

/-! ## Files -/

/-- Whether a file holds a document that passes a check, or nothing that is taken for one. -/
def contentFits (fits : Json → Bool) (content : FileContent) : Bool :=
  match documentOf content with
  | .ok document => fits document
  | .error (.general _) => false
  | .error _ => true

theorem isUnchecked_of_general {content : FileContent} {fault : Fault}
    (found : documentOf content = .error (.general fault)) : fault.isUnchecked = true := by
  unfold documentOf at found
  split at found
  · cases found
  · split at found
    · cases found
      rfl
    · split at found
      · rename_i readFault _
        cases readFault <;> cases found <;> rfl
      · cases found
      · cases found

theorem obj_of_documentOf {content : FileContent} {document : Json}
    (found : documentOf content = .ok document) : ∃ fields, document = .obj fields := by
  unfold documentOf at found
  split at found
  · cases found
  · split at found
    · cases found
    · split at found
      · cases found
      · cases found
        exact ⟨_, rfl⟩
      · cases found

/-! ## Unchecked slots -/

section Slots

variable {typed : Prop} {refusal : Fault → Bool}

theorem Json.judged_items {fits : Json → Bool} {value : Json}
    (isTyped : typed → value.allItems fits) :
    Judged (Fault.Due refusal typed) (fun items => typed → ∀ item ∈ items, fits item = true)
      value.items := by
  unfold Json.allItems at isTyped
  cases read : value.items with
  | ok items =>
      refine .ok fun holds => ?_
      have all := isTyped holds
      rw [read] at all
      exact List.all_eq_true.mp all
  | error fault =>
      have isIterable : fault = .notIterable value.kindName := by
        unfold Json.items at read
        split at read
        · cases read
        · cases read
        · cases read
        · exact (Except.error.inj read).symm
      refine .error (.inr ⟨by rw [isIterable]; rfl, fun holds => ?_⟩)
      have all := isTyped holds
      rw [read] at all
      cases all

theorem Json.judged_asKey {value : Json} (isTyped : typed → value.isKey) :
    Judged (Fault.Due refusal typed) (fun key => value = .atom key) value.asKey := by
  cases value with
  | atom key => exact .ok rfl
  | arr items => exact .error (.inr ⟨rfl, fun holds => nomatch isTyped holds⟩)
  | obj fields => exact .error (.inr ⟨rfl, fun holds => nomatch isTyped holds⟩)

theorem Json.judged_asText (operation : String) {value : Json} (isTyped : typed → value.isText) :
    Judged (Fault.Due refusal typed) (fun text => value = .text text) (value.asText operation) := by
  cases value with
  | atom value =>
      cases value with
      | text text => exact .ok rfl
      | null | bool | int | real =>
          exact .error (.inr ⟨rfl, fun holds => nomatch isTyped holds⟩)
  | arr items => exact .error (.inr ⟨rfl, fun holds => nomatch isTyped holds⟩)
  | obj fields => exact .error (.inr ⟨rfl, fun holds => nomatch isTyped holds⟩)

end Slots

namespace Description

open Json

/-! ## Program descriptions -/

section Predicates

-- What declared targets have to be: nothing is needed to read them, texts to look them up.
variable (target : Json → Bool)

/-- A statement invokes a text, and its arguments and targets are sequences. -/
def statementFits (document : Json) : Bool :=
  document.fieldFits "invoke" (fun value => value.isNull || value.isText) &&
    document.fieldFits "args" isSequence &&
    document.fieldFits "targets" fun value => value.isNull || value.allItems target

/-- Loops are sequences of positions, and so are the successors of a position. -/
def loopsFit (document : Json) : Bool :=
  match document.field? "loops", document.field? "successors" with
  | some given, none => given.allItems isSequence
  | none, some (.obj successors) => successors.all fun entry => entry.2.isSequence
  | _, _ => true

def methodFits (document : Json) : Bool :=
  document.fieldFits "subsignature" isKey &&
    match document.hasTruthy "phantom", document.field? "statements" with
    | false, some statements => statements.allItems (statementFits target) && loopsFit document
    | _, _ => true

/-- A class without a name is refused before anything else is looked at. -/
def classFits (document : Json) : Bool :=
  !(nameOf document).truthy ||
    (nameOf document).isText && document.fieldFits "methods" (allItems (methodFits target)) &&
      document.fieldFits "interfaces" isSequence

/-- Whether all values of a program description are of the kinds that its reader needs. -/
def programFits : Json → Bool
  | .obj fields =>
      match (Json.obj fields).field? "classes" with
      | some (.arr documents) => documents.all (classFits target)
      | _ => true
  | _ => false

end Predicates

/-- Whether the targets of all statements are as declared targets have to be, or texts. -/
def TargetsFit (target : Json → Bool) (body : Option (List Statement)) : Prop :=
  ∀ statements ∈ body, ∀ s ∈ statements, ∀ name ∈ s.declaredTargets,
    target name = true ∨ name.isText = true

/-- Whether a part of a description gives what is expected or fails in a way that is due. -/
abbrev Parses {α : Type} (typed : Prop) (post : α → Prop) (x : Except Fault α) : Prop :=
  Judged (Fault.Due Fault.isFormat typed) post x

section Statements

variable {typed : Prop} {target : Json → Bool}

theorem judged_refuse {α : Type} {post : α → Prop} (error : FormatError) :
    Parses typed post (refuse error) := .error (.inl rfl)

theorem judged_itemsOf {key : Text} {fits : Json → Bool} {document : Json}
    (isTyped : typed → document.fieldFits key (allItems fits)) :
    Parses typed (fun items => typed → ∀ item ∈ items, fits item = true)
      (itemsOf key document) := by
  unfold itemsOf
  unfold fieldFits at isTyped
  cases given : document.field? key with
  | none => exact .ok fun _ item listed => nomatch listed
  | some value =>
      rw [given] at isTyped
      exact judged_items isTyped

theorem judged_split (signature : Text) :
    Parses typed (fun _ => True) (Signature.split signature) := by
  unfold Signature.split
  split
  · exact .ok trivial
  · exact judged_refuse _

theorem judged_invokedSignature {document : Json}
    (isTyped : typed →
      document.fieldFits "invoke" fun value => value.isNull || value.isText) :
    Parses typed (fun method => ∀ name ∈ method, name.isText = true)
      (invokedSignature document) := by
  unfold invokedSignature
  unfold fieldFits at isTyped
  split
  · exact .ok fun name isName => nomatch isName
  · exact .ok fun name isName => nomatch isName
  · rename_i signature notNull isGiven
    rw [isGiven] at isTyped
    have isText (holds : typed) : signature.isText = true := of_isNull_or notNull (isTyped holds)
    have reads : Parses typed (fun _ => signature.isText = true)
        (Signature.splitValue signature) := by
      refine (judged_asText "startswith" isText).bind fun name isName => ?_
      exact (judged_split name).imp fun _ _ => by rw [isName]; rfl
    refine reads.bind fun parts isText => .ok fun name isName => ?_
    cases isName
    exact isText

theorem judged_targetsOf {document : Json}
    (isTyped : typed →
      document.fieldFits "targets" fun value => value.isNull || value.allItems target) :
    Parses typed
      (fun targets => typed → ∀ names ∈ targets, ∀ name ∈ names, target name = true)
      (targetsOf document) := by
  unfold targetsOf
  unfold fieldFits at isTyped
  split
  · exact .ok fun _ names isGiven => nomatch isGiven
  · exact .ok fun _ names isGiven => nomatch isGiven
  · rename_i value notNull isGiven
    rw [isGiven] at isTyped
    have fits (holds : typed) : value.allItems target = true := of_isNull_or notNull (isTyped holds)
    refine Judged.map ((judged_items fits).imp fun items fit holds names isItems => ?_)
    cases isItems
    exact fit holds

theorem judged_statement (site : Text) (position : Nat) {document : Json}
    (isTyped : typed → statementFits target document) :
    Parses typed
      (fun s => typed → ∀ name ∈ s.declaredTargets, target name = true ∨ name.isText = true)
      (statement site position document) := by
  cases document with
  | atom value =>
      cases value with
      | null => exact .ok fun _ name isTarget => nomatch isTarget
      | bool | int | real | text => exact judged_refuse _
  | arr items => exact judged_refuse _
  | obj fields =>
      have slots (holds : typed) := Bool.and_eq_true_iff.mp (isTyped holds)
      have invoke (holds : typed) := (Bool.and_eq_true_iff.mp (slots holds).1).1
      have args (holds : typed) := (Bool.and_eq_true_iff.mp (slots holds).1).2
      unfold statement
      refine (judged_invokedSignature invoke).bind fun method isText => ?_
      dsimp only
      split
      · exact judged_refuse _
      · refine (judged_itemsOf args).bind fun argTypes _ => ?_
        refine (judged_targetsOf fun holds => (slots holds).2).bind fun targets fit => ?_
        -- However the call is spelled, its targets are the given ones or else the invoked method.
        have fitting {s : Statement} (isTarget : ∀ name ∈ s.declaredTargets,
            (∃ names, targets = some names ∧ name ∈ names) ∨ method = some name) (holds : typed) :
            ∀ name ∈ s.declaredTargets, target name = true ∨ name.isText = true := by
          intro name listed
          rcases isTarget name listed with ⟨names, isGiven, isName⟩ | isInvoked
          · exact .inl (fit holds names isGiven name isName)
          · exact .inr (isText name isInvoked)
        split
        · refine .ok (fitting ?_)
          cases targets <;> simp +contextual [Statement.declaredTargets, Statement.invokedMethod]
        · split
          · refine .ok (fitting ?_)
            cases targets <;> simp +contextual [Statement.declaredTargets, Statement.invokedMethod]
          · refine .ok (fitting ?_)
            cases targets <;> cases method <;>
              simp +contextual [Statement.declaredTargets, Statement.invokedMethod]

theorem judged_statementsFrom (site : Text) (position : Nat) {documents : List Json}
    (isTyped : typed → ∀ document ∈ documents, statementFits target document = true) :
    Parses typed
      (fun statements => typed → TargetsFit target (some statements))
      (statementsFrom site position documents) := by
  induction documents generalizing position with
  | nil => exact .ok fun _ statements isBody s listed => by cases isBody; cases listed
  | cons document rest ih =>
      have both (holds : typed) := List.forall_mem_cons.mp (isTyped holds)
      refine (judged_statement site position fun holds => (both holds).1).bind fun s first => ?_
      refine (ih (position + 1) fun holds => (both holds).2).bind fun others fit => ?_
      refine .ok fun holds statements isBody => ?_
      cases isBody
      exact List.forall_mem_cons.mpr ⟨first holds, fit holds others rfl⟩

/-! ## Loops -/

theorem judged_positionIn (site : Text) (length : Nat) (value : Json) :
    Parses typed (fun _ => True) (positionIn site length value) := by
  unfold positionIn
  dsimp only
  split
  · split
    · exact .ok trivial
    · exact judged_refuse _
  · exact judged_refuse _

theorem judged_loop (site : Text) (length : Nat) {members : Json}
    (isTyped : typed → members.isSequence) :
    Parses typed (fun _ => True) (loop site length members) := by
  refine (judged_items isTyped).bind fun items _ => ?_
  refine (Judged.mapM fun value _ => judged_positionIn site length value).bind fun positions _ => ?_
  cases positions with
  | nil => exact judged_refuse _
  | cons header rest => exact .ok trivial

theorem judged_successorsAt (site : Text) (length : Nat) {entry : Text × Json}
    (isTyped : typed → entry.2.isSequence) :
    Parses typed (fun _ => True) (successorsAt site length entry) := by
  unfold successorsAt
  dsimp only
  split
  · exact judged_refuse _
  · refine (judged_positionIn site length _).bind fun source _ => ?_
    refine (judged_items isTyped).bind fun items _ => ?_
    refine (Judged.mapM fun value _ => judged_positionIn site length value).bind fun _ _ => ?_
    exact .ok trivial

theorem judged_flow (site : Text) (length : Nat) {successors : List (Text × Json)}
    (isTyped : typed → ∀ entry ∈ successors, entry.2.isSequence = true) :
    Parses typed (fun _ => True) (flow site length successors) := by
  refine (Judged.mapM fun entry listed =>
    judged_successorsAt site length fun holds => isTyped holds entry listed).bind fun _ _ => ?_
  exact .ok trivial

end Statements

/-- Whether a reading returns what is expected or fails in a way that is due. -/
abbrev Reads {α : Type} (typed : Prop) (post : α → Prop) (x : Reading α) : Prop :=
  Meets (fun _ => True) (Fault.Due Fault.isFormat typed) post x

section Classes

variable {typed : Prop} {target : Json → Bool}

theorem reads_recoverLoops (flow : Flow Nat) : Reads typed (fun _ => True) (recoverLoops flow) := by
  unfold recoverLoops
  dsimp only
  split
  · exact (Meets.modify fun _ _ => trivial).bind fun _ _ => .pure trivial
  · exact .pure trivial

theorem reads_loops (site : Text) (length : Nat) {document : Json}
    (isTyped : typed → loopsFit document) :
    Reads typed (fun _ => True) (loops site length document) := by
  unfold loops
  unfold loopsFit at isTyped
  cases given : document.field? "loops" with
  | some members =>
      cases flows : document.field? "successors" with
      | some successors => exact .throw (.inl rfl)
      | none =>
          simp only [given, flows] at isTyped
          refine .ofExcept ((judged_items isTyped).bind fun items fit => ?_)
          have each : ∀ item ∈ items, Parses typed (fun _ => True)
              (loop site length item) := fun item listed =>
            judged_loop site length fun holds => fit holds item listed
          exact (Judged.mapM each).imp fun _ _ => trivial
  | none =>
      cases flows : document.field? "successors" with
      | none => exact .pure trivial
      | some successors =>
          cases successors with
          | atom value | arr items => exact .throw (.inl rfl)
          | obj successors =>
              simp only [given, flows] at isTyped
              refine (Meets.ofExcept (judged_flow site length fun holds =>
                List.all_eq_true.mp (isTyped holds))).bind fun flow _ => ?_
              exact reads_recoverLoops flow

theorem reads_method (className : Json) {document : Json}
    (isTyped : typed → methodFits target document) :
    Reads typed (fun m => typed → m.subsignature.isKey = true ∧ TargetsFit target m.body)
      (method className document) := by
  have slots (holds : typed) := Bool.and_eq_true_iff.mp (isTyped holds)
  unfold method
  cases given : document.field? "subsignature" with
  | none => exact .throw (.inl rfl)
  | some subsignature =>
      have isKey (holds : typed) : subsignature.isKey = true := by
        have fits := (slots holds).1
        rwa [fieldFits, given] at fits
      have bodiless : TargetsFit target none := fun _ isBody => nomatch isBody
      cases isPhantom : document.hasTruthy "phantom" with
      | true => exact .pure fun holds => ⟨isKey holds, bodiless⟩
      | false =>
          cases hasBody : document.field? "statements" with
          | none => exact .pure fun holds => ⟨isKey holds, bodiless⟩
          | some statements =>
              have both (holds : typed) : (statements.allItems (statementFits target) &&
                  loopsFit document) = true := by
                have fits := (slots holds).2
                rwa [isPhantom, hasBody] at fits
              have parts (holds : typed) := Bool.and_eq_true_iff.mp (both holds)
              refine (Meets.ofExcept ((judged_items fun holds => (parts holds).1).bind
                fun items fit => judged_statementsFrom _ 0 fit)).bind fun body fit => ?_
              refine (reads_loops _ _ fun holds => (parts holds).2).bind fun loops _ => ?_
              exact .pure fun holds => ⟨isKey holds, fit holds⟩

theorem judged_keyed {className : Json} {m : Method}
    (isTyped : typed → m.subsignature.isKey = true) :
    Parses typed (fun entry => entry.2 = m) (keyed className m) := by
  unfold keyed
  dsimp only
  split
  · exact judged_refuse _
  · exact (judged_asKey isTyped).bind fun key _ => .ok rfl

/-- What is known about a class that was read from a document of the right kinds. -/
structure ClassFits (target : Json → Bool) (c : Class) : Prop where
  name : c.name.isText = true
  targets : ∀ entry ∈ c.methods, TargetsFit target entry.2.body

theorem reads_classOf {document : Json} (isTyped : typed → classFits target document) :
    Reads typed (fun c => typed → ClassFits target c) (classOf document) := by
  unfold classOf
  change Reads typed _ (if !(nameOf document).truthy then _ else _)
  split
  · exact .throw (.inl rfl)
  · rename_i named
    have slots (holds : typed) : ((nameOf document).isText && document.fieldFits "methods"
        (allItems (methodFits target)) && document.fieldFits "interfaces" isSequence) = true := by
      have fits := isTyped holds
      unfold classFits at fits
      rwa [Bool.eq_false_of_not_eq_true named, Bool.false_or] at fits
    have slots (holds : typed) := Bool.and_eq_true_iff.mp (slots holds)
    have first (holds : typed) := Bool.and_eq_true_iff.mp (slots holds).1
    refine (Meets.ofExcept (judged_itemsOf fun holds => (first holds).2)).bind fun items fit => ?_
    refine (Meets.mapM fun item listed =>
      reads_method (nameOf document) fun holds => fit holds item listed).bind fun methods fit => ?_
    refine (Meets.ofExcept (judged_itemsOf fun holds => (slots holds).2)).bind fun interfaces _ => ?_
    have keys : ∀ m ∈ methods, Reads typed (fun entry => typed → TargetsFit target entry.2.body)
        (ofExcept (keyed (nameOf document) m)) := by
      intro m listed
      refine .ofExcept ((judged_keyed fun holds => (fit m listed holds).1).imp ?_)
      intro entry isEntry holds
      rw [isEntry]
      exact (fit m listed holds).2
    refine (Meets.mapM keys).bind fun entries fit => .pure fun holds => ?_
    exact ⟨(first holds).1, fun entry listed => fit entry listed holds⟩

/-- What is known about a class that was filed under a key. -/
def EntryFits (target : Json → Bool) (entry : Atom × Class) : Prop :=
  (Json.atom entry.1).isText = true ∧ ClassFits target entry.2

theorem judged_addClass {found : List (Atom × Class)} {c : Class}
    (fit : ∀ entry ∈ found, typed → EntryFits target entry) (isTyped : typed → ClassFits target c) :
    Parses typed
      (fun next => ∀ entry ∈ next, typed → EntryFits target entry) (addClass found c) := by
  have isKey (holds : typed) : c.name.isKey = true := isKey_of_isText (isTyped holds).name
  unfold addClass
  refine (judged_asKey isKey).bind fun key isName => ?_
  dsimp only
  split
  · exact judged_refuse _
  · refine .ok fun entry listed holds => ?_
    rcases List.mem_append.mp listed with old | isNew
    · exact fit entry old holds
    · rw [List.mem_singleton.mp isNew]
      exact ⟨isName ▸ (isTyped holds).name, isTyped holds⟩

end Classes

/-! ## Programs -/

section Programs

variable {typed : Prop} {target : Json → Bool}

theorem judged_make (shell : ClassDecl) (methods : List Procedure) :
    Parses typed (fun c => ClassDecl.make shell methods = .ok c)
      (ClassDecl.make shell methods) := by
  have step (c : ClassDecl) (p : Procedure) :
      Parses typed (fun _ => True) (c.addMethod p) := by
    unfold ClassDecl.addMethod
    split
    · exact .ok trivial
    · exact .error (.inl rfl)
  have makes : Parses typed (fun _ => True)
      (ClassDecl.make shell methods) := Judged.foldlM (fun c _ p _ => step c p) trivial
  exact makes.and_eq.imp fun c made => made.2

/-- What is known about a class that was declared: it is called by a text and holds its own methods,
    and their targets fit if the description did. -/
structure DeclFits (typed : Prop) (target : Json → Bool) (c : ClassDecl) : Prop where
  name : ∃ name, c.name = .text name
  owned : c.OwnsMethods
  targets : typed → ∀ p ∈ c.methods, TargetsFit target p.body

-- The names of classes may have to pass a check with faults of its own.
variable {excused : Fault → Prop}
  (due : ∀ fault, Fault.Due Fault.isFormat typed fault → excused fault)
  {check : Text → Except Fault Unit} (checks : ∀ name, Judged excused (fun _ => True) (check name))

include due checks

theorem judged_accept {entry : Atom × Class} (isTyped : typed → EntryFits target entry) :
    Judged excused (DeclFits typed target) (Class.accept check entry) := by
  obtain ⟨key, c⟩ := entry
  unfold Class.accept
  refine ((judged_asText _ fun holds => (isTyped holds).1).weaken due).bind fun name isName => ?_
  refine (checks name).bind fun _ _ => ((judged_make _ _).weaken due).imp fun declared made => ?_
  refine ⟨⟨name, ?_⟩, ClassDecl.ownsMethods_of_make made, fun holds p isMethod => ?_⟩
  · rw [ClassDecl.name_of_make made]
    exact Json.atom.inj isName
  · obtain ⟨m, isGiven, rfl⟩ := List.mem_map.mp (ClassDecl.mem_of_make made isMethod)
    exact (isTyped holds).2.targets m isGiven

theorem reads_classes {documents : List Json}
    (isTyped : typed → ∀ document ∈ documents, classFits target document = true) :
    Meets (fun _ => True) excused (fun declared => ∀ c ∈ declared, DeclFits typed target c)
      (classes check documents) := by
  have files : Reads typed (fun found => ∀ entry ∈ found, typed → EntryFits target entry)
      (documents.foldlM fileClass []) := by
    refine Meets.foldlM (fun found fit document listed => ?_) (by simp)
    refine (reads_classOf fun holds => isTyped holds document listed).bind fun c isTyped => ?_
    exact .ofExcept (judged_addClass fit isTyped)
  refine (files.weaken due).bind fun found fit => ?_
  exact .mapM fun entry listed => .ofExcept (judged_accept due checks (fit entry listed))

/-- What is known about a program that was loaded. -/
structure ProgramFits (config : Config) (typed : Prop) (target : Json → Bool) (program : Program) :
    Prop where
  config : program.config = config
  classes : ∀ c ∈ program.classes.values, DeclFits typed target c

omit due checks in
theorem judged_ofClasses (config : Config) {declared : List ClassDecl}
    (fit : ∀ c ∈ declared, DeclFits typed target c) :
    Parses typed (ProgramFits config typed target)
      (Program.ofClasses config declared) := by
  have step (program : Program) (c : ClassDecl) :
      Parses typed (fun _ => True) (program.addClass c) := by
    unfold Program.addClass
    split
    · exact .error (.inl rfl)
    · exact .ok trivial
  have builds : Parses typed (fun _ => True)
      (Program.ofClasses config declared) :=
    Judged.foldlM (fun program _ c _ => step program c) trivial
  refine builds.and_eq.imp fun program built => ?_
  obtain ⟨sameConfig, -, values, -⟩ := Program.addClasses_fields built.2
  have values : program.classes.values = declared := values
  exact ⟨sameConfig, values ▸ fit⟩

theorem reads_checkedProgram (config : Config) {document : Json}
    (isTyped : typed → programFits target document) :
    Meets (fun _ => True) excused (ProgramFits config typed target)
      (checkedProgram config check document) := by
  cases document with
  | atom value | arr items => exact .throw (due _ (.inr ⟨rfl, fun holds => nomatch isTyped holds⟩))
  | obj fields =>
      unfold checkedProgram
      unfold programFits at isTyped
      cases given : (Json.obj fields).field? "classes" with
      | none => exact .throw (due _ (.inl rfl))
      | some value =>
          cases value with
          | atom value | obj fields => exact .throw (due _ (.inl rfl))
          | arr documents =>
              simp only [given] at isTyped
              refine (reads_classes due checks fun holds =>
                List.all_eq_true.mp (isTyped holds)).bind fun declared fit => ?_
              refine (Meets.ofExcept ((judged_ofClasses config fit).weaken due)).bind
                fun program fits => ?_
              exact (Meets.modify fun _ _ => trivial).bind fun _ _ => .pure fits

/-- Reading a program from a file ends with a program, with a refusal, or with the fault of a value
    of the wrong kind or of a file that holds none. -/
theorem reads_checkedProgramOfFile (config : Config) (path : Text) {content : FileContent}
    (isTyped : typed → contentFits (programFits target) content) :
    Meets (fun _ => True) excused (ProgramFits config typed target)
      (checkedProgramOfFile config check path content) := by
  unfold checkedProgramOfFile
  unfold contentFits at isTyped
  cases found : documentOf content with
  | ok document =>
      simp only [found] at isTyped
      exact reads_checkedProgram due checks config isTyped
  | error fault =>
      cases fault with
      | unreadable error => exact .throw (due _ (.inl rfl))
      | notJson => exact .throw (due _ (.inl rfl))
      | notObject => exact .throw (due _ (.inl rfl))
      | general fault =>
          simp only [found] at isTyped
          have unfit (holds : typed) : False := nomatch isTyped holds
          exact .throw (due _ (.inr ⟨isUnchecked_of_general found, unfit⟩))

omit due checks in
variable (target) in
theorem reads_programOfFile (config : Config) (path : Text) (content : FileContent) :
    Reads (contentFits (programFits target) content)
      (ProgramFits config (contentFits (programFits target) content) target)
      (programOfFile config path content) :=
  reads_checkedProgramOfFile (fun _ => id) (fun _ => .ok trivial) config path id

end Programs

end Description

/-! ## Configurations -/

namespace Config

/-- Whether the list fields of a configuration hold sequences. -/
def documentFits (document : Json) : Bool :=
  listFields.all fun key => document.fieldFits key Json.isSequence

variable {typed : Prop}

theorem judged_listField {document : Json} {key : Text} (default : List Text)
    (isTyped : typed → document.fieldFits key Json.isSequence) :
    Judged (Fault.Due Fault.isConfig typed) (fun _ => True) (listField document key default) := by
  unfold listField
  unfold Json.fieldFits at isTyped
  split
  · exact .ok trivial
  · exact .error (.inl rfl)
  · rename_i value _ isGiven
    rw [isGiven] at isTyped
    refine (Json.judged_items isTyped).bind fun items _ => ?_
    split
    · exact .ok trivial
    · exact .error (.inl rfl)

theorem exists_allTexts {values : List Json} (texts : ∀ value ∈ values, value.isText = true) :
    ∃ found, allTexts values = .ok found := by
  induction values with
  | nil => exact ⟨[], rfl⟩
  | cons value rest ih =>
      obtain ⟨isText, others⟩ := List.forall_mem_cons.mp texts
      obtain ⟨found, read⟩ := ih others
      unfold Json.isText at isText
      split at isText
      · rename_i text
        exact ⟨text :: found, by rw [allTexts, read]; rfl⟩
      · cases isText

/-- The names in an object are texts, so the unknown ones can be told. -/
theorem judged_unknownKeys (fields : List (Text × Json)) :
    Judged (fun _ => False) (fun _ => True) (unknownKeys (.obj fields)) := by
  have each : ∀ value ∈ fields.map fun entry => Json.text entry.1,
      Judged (fun _ => False) (fun key => (Json.atom key).isText = true) value.asKey := by
    intro value listed
    obtain ⟨entry, -, rfl⟩ := List.mem_map.mp listed
    exact .ok rfl
  unfold unknownKeys
  change Judged _ _ ((fields.map fun entry => Json.text entry.1).mapM Json.asKey >>= _)
  refine (Judged.mapM each).bind fun keys texts => ?_
  have unknownTexts : ∀ value ∈ (keys.filter fun key =>
      !Config.fields.any fun field => key = .text field).map Json.atom, value.isText = true := by
    intro value listed
    obtain ⟨key, isUnknown, rfl⟩ := List.mem_map.mp listed
    exact texts key (List.mem_of_mem_filter isUnknown)
  obtain ⟨unknown, read⟩ := exists_allTexts unknownTexts
  simp only [read]
  exact .ok trivial

theorem judged_ofDocument {fields : List (Text × Json)}
    (isTyped : typed → documentFits (.obj fields)) :
    Judged (Fault.Due Fault.isConfig typed)
      (fun config => config.entrySubsignature =
        ((Json.obj fields).field? "entry_subsignature").getD (Config.entrySubsignature {}))
      (ofDocument (.obj fields)) := by
  have fit (key : Text) (isField : key ∈ listFields) (holds : typed) :
      (Json.obj fields).fieldFits key Json.isSequence = true :=
    List.all_eq_true.mp (isTyped holds) key isField
  unfold ofDocument
  refine ((judged_unknownKeys fields).weaken fun _ never => never.elim).bind fun unknown _ => ?_
  dsimp only
  split
  · exact .error (.inl rfl)
  · refine (judged_listField _ (fit _ (by simp [listFields]))).bind fun prefixes _ => ?_
    refine (judged_listField _ (fit _ (by simp [listFields]))).bind fun starts _ => ?_
    refine (judged_listField _ (fit _ (by simp [listFields]))).bind fun submits _ => ?_
    refine (judged_listField _ (fit _ (by simp [listFields]))).bind fun markers _ => ?_
    exact .ok rfl

end Config

end CallWeight
