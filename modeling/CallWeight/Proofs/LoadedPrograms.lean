import CallWeight.Program.Description
import CallWeight.Proofs.Programs

/-! # What a description guarantees

A program that was read from a document is put together from classes that hold their own methods. The
statements of a body are numbered by their positions, and whatever a statement invokes is a text that
reads as a signature. Nothing of the kind is checked of declared targets.
-/

namespace CallWeight

/-- What reading guarantees about the statement at a given position of a body. -/
structure Statement.Sound (s : Statement) (position : Nat) : Prop where
  index : s.index = .ofNat position
  invoked : ∀ {method}, s.invokedMethod = some method →
    ∃ signature parts, method = .text signature ∧ Signature.split signature = .ok parts

def SoundBody (body : Option (List Statement)) : Prop :=
  ∀ statements ∈ body, ∀ s position, (s, position) ∈ statements.zipIdx → s.Sound position

theorem SoundBody.placed {p : Procedure} {body : List Statement} (sound : SoundBody p.body)
    (hasBody : p.body = some body) {site : Site} {s : Statement}
    (isPlaced : (site, s) ∈ p.placed body) : s.Sound site.position := by
  obtain ⟨⟨t, position⟩, listed, located⟩ := List.mem_map.mp isPlaced
  cases located
  exact sound body hasBody s position listed

/-- The methods of a class are among those that it was made of. -/
theorem ClassDecl.mem_of_make {shell c : ClassDecl} {methods : List Procedure}
    (made : make shell methods = .ok c) : c.methods ⊆ methods := by
  have added (before after : ClassDecl) (adds : methods.foldlM addMethod before = .ok after) :
      after.methods ⊆ before.methods ++ methods := by
    clear made
    induction methods generalizing before with
    | nil =>
        cases adds
        simp
    | cons p rest ih =>
        obtain ⟨middle, first, others⟩ := ok_of_exceptBind adds
        unfold addMethod at first
        split at first
        · cases first
          intro q listed
          rcases List.mem_append.mp (ih _ others listed) with isMethod | inRest
          · rcases mem_insertMethod isMethod with rfl | old
            · simp
            · simp [old]
          · simp [inRest]
        · cases first
  simpa using added _ c made

namespace Description

theorem text_of_splitValue {value : Json} {parts : Text × Text}
    (splits : Signature.splitValue value = .ok parts) :
    ∃ signature, value = .text signature ∧ Signature.split signature = .ok parts := by
  obtain ⟨signature, isText, splits⟩ := ok_of_exceptBind splits
  exact ⟨signature, Json.eq_text_of_asText isText, splits⟩

theorem invokedSignature_spec {document : Json} {invoked : Option Json}
    (read : invokedSignature document = .ok invoked) {method : Json}
    (isInvoked : invoked = some method) :
    ∃ signature parts, method = .text signature ∧ Signature.split signature = .ok parts := by
  unfold invokedSignature at read
  subst isInvoked
  split at read
  · cases read
  · cases read
  · obtain ⟨parts, splits, others⟩ := ok_of_exceptBind read
    cases others
    obtain ⟨signature, isText, splits⟩ := text_of_splitValue splits
    exact ⟨signature, parts, isText, splits⟩

theorem sound_statement {site : Text} {position : Nat} {document : Json} {s : Statement}
    (read : statement site position document = .ok s) : s.Sound position := by
  unfold statement at read
  split at read
  · cases read
    refine ⟨rfl, fun invoked => ?_⟩
    cases invoked
  · obtain ⟨method, invokes, read⟩ := ok_of_exceptBind read
    dsimp only at read
    split at read
    · cases read
    · obtain ⟨argTypes, -, read⟩ := ok_of_exceptBind read
      obtain ⟨targets, -, read⟩ := ok_of_exceptBind read
      refine ⟨?_, fun invoked => invokedSignature_spec invokes ?_⟩
      · split at read
        · cases read
          rfl
        · split at read <;>
          · cases read
            rfl
      · split at read
        · cases read
          exact invoked
        · split at read
          · cases read
            exact invoked
          · cases read
            cases method with
            | none => exact invoked
            | some signature => exact invoked
  · cases read

theorem sound_statementsFrom {site : Text} {first : Nat} {documents : List Json}
    {statements : List Statement} (read : statementsFrom site first documents = .ok statements) :
    ∀ s position, (s, position) ∈ statements.zipIdx first → s.Sound position := by
  induction documents generalizing first statements with
  | nil =>
      cases read
      simp
  | cons document rest ih =>
      obtain ⟨s, readFirst, read⟩ := ok_of_exceptBind read
      obtain ⟨others, readRest, read⟩ := ok_of_exceptBind read
      cases read
      intro t position listed
      rw [List.zipIdx_cons] at listed
      rcases List.mem_cons.mp listed with isFirst | inRest
      · cases isFirst
        exact sound_statement readFirst
      · exact ih readRest t position inRest

theorem sound_method {className document : Json} {log log' : Log} {m : Method}
    (read : method className document log = .ok m log') :
    m.declaringClass = className ∧ document.field? "subsignature" = some m.subsignature ∧
      SoundBody m.body := by
  unfold method at read
  cases hasSubsignature : document.field? "subsignature" with
  | none =>
      simp only [hasSubsignature] at read
      cases read
  | some subsignature =>
      simp only [hasSubsignature] at read
      cases isPhantom : document.hasTruthy "phantom" with
      | true =>
          simp only [isPhantom] at read
          cases read
          exact ⟨rfl, rfl, by simp [SoundBody]⟩
      | false =>
          cases hasBody : document.field? "statements" with
          | none =>
              simp only [isPhantom, hasBody] at read
              cases read
              exact ⟨rfl, rfl, by simp [SoundBody]⟩
          | some value =>
              simp only [isPhantom, hasBody] at read
              obtain ⟨statements, log, readBody, read⟩ := ok_of_bind read
              obtain ⟨loops, log, -, read⟩ := ok_of_bind read
              cases read
              obtain ⟨items, -, readBody⟩ := ok_of_exceptBind (ok_of_ofExcept readBody).2
              refine ⟨rfl, rfl, fun found isBody => ?_⟩
              cases isBody
              exact sound_statementsFrom readBody

theorem sound_classOf {document : Json} {log log' : Log} {c : Class}
    (read : classOf document log = .ok c log') : ∀ entry ∈ c.methods, SoundBody entry.2.body := by
  unfold classOf at read
  dsimp only at read
  split at read
  · obtain ⟨done, log, thrown, read⟩ := ok_of_bind read
    cases thrown
  · obtain ⟨items, log, -, read⟩ := ok_of_bind read
    obtain ⟨methods, log, readMethods, read⟩ := ok_of_bind read
    obtain ⟨interfaces, log, -, read⟩ := ok_of_bind read
    obtain ⟨entries, log, keys, read⟩ := ok_of_bind read
    cases read
    intro entry listed
    obtain ⟨m, isMethod, u, v, isKeyed⟩ := mem_of_mapM keys listed
    obtain ⟨item, -, u, v, readMethod⟩ := mem_of_mapM readMethods isMethod
    have keepsBody : entry.2 = m := by
      have isKeyed := (ok_of_ofExcept isKeyed).2
      unfold keyed at isKeyed
      split at isKeyed
      · cases isKeyed
      · obtain ⟨key, -, isKeyed⟩ := ok_of_exceptBind isKeyed
        cases isKeyed
        rfl
    rw [keepsBody]
    exact (sound_method readMethod).2.2

theorem mem_of_addClass {found next : List (Atom × Class)} {c : Class}
    (added : addClass found c = .ok next) : ∀ entry ∈ next, entry ∈ found ∨ entry.2 = c := by
  obtain ⟨key, -, added⟩ := ok_of_exceptBind added
  dsimp only at added
  split at added
  · cases added
  · cases added
    intro entry listed
    rcases List.mem_append.mp listed with old | isNew
    · exact .inl old
    · exact .inr (by rw [List.mem_singleton.mp isNew])

/-- What reading guarantees about a class: it was made of methods with sound bodies. -/
def SoundClass (c : ClassDecl) : Prop :=
  ∃ shell methods, ClassDecl.make shell methods = .ok c ∧ ∀ p ∈ methods, SoundBody p.body

theorem sound_classes {check : Text → Except Fault Unit} {documents : List Json} {log log' : Log}
    {declared : List ClassDecl} (read : classes check documents log = .ok declared log') :
    ∀ c ∈ declared, SoundClass c := by
  obtain ⟨found, log, reads, accepts⟩ := ok_of_bind read
  have sound : ∀ entry ∈ found, ∀ m ∈ entry.2.methods, SoundBody m.2.body := by
    refine foldlM_preserves (P := fun found _ =>
      ∀ entry ∈ found, ∀ m ∈ entry.2.methods, SoundBody m.2.body) ?_ (by simp) reads
    intro document _ before log next log' kept returned
    obtain ⟨c, log, readClass, added⟩ := ok_of_bind returned
    intro entry listed
    rcases mem_of_addClass (ok_of_ofExcept added).2 entry listed with old | isNew
    · exact kept entry old
    · rw [isNew]
      exact sound_classOf readClass
  intro c listed
  obtain ⟨entry, isEntry, u, v, accepted⟩ := mem_of_mapM accepts listed
  obtain ⟨name, -, accepted⟩ := ok_of_exceptBind (ok_of_ofExcept accepted).2
  obtain ⟨done, -, made⟩ := ok_of_exceptBind accepted
  refine ⟨_, _, made, fun p isMethod => ?_⟩
  obtain ⟨m, isGiven, rfl⟩ := List.mem_map.mp isMethod
  exact sound entry isEntry m isGiven

theorem classes_of_program {config : Config} {document : Json} {log log' : Log}
    {loaded : Program} (read : program config document log = .ok loaded log') :
    ∃ documents declared before after, document.field? "classes" = some (.arr documents) ∧
      classes (fun _ => .ok ()) documents before = .ok declared after ∧
      Program.ofClasses config declared = .ok loaded := by
  unfold program checkedProgram at read
  cases document with
  | atom value | arr items => cases read
  | obj fields =>
      cases hasClasses : (Json.obj fields).field? "classes" with
      | none =>
          simp only [hasClasses] at read
          cases read
      | some value =>
          cases value with
          | atom value | obj fields =>
              simp only [hasClasses] at read
              cases read
          | arr documents =>
              simp only [hasClasses] at read
              obtain ⟨declared, between, readClasses, read⟩ := ok_of_bind read
              obtain ⟨made, before, built, read⟩ := ok_of_bind read
              obtain ⟨done, after, -, read⟩ := ok_of_bind read
              cases read
              exact ⟨documents, declared, log, between, rfl, readClasses, (ok_of_ofExcept built).2⟩

theorem exists_classes_of_program {config : Config} {document : Json} {log log' : Log}
    {loaded : Program} (read : program config document log = .ok loaded log') :
    ∃ classes, Program.ofClasses config classes = .ok loaded ∧ ∀ c ∈ classes, SoundClass c := by
  obtain ⟨documents, declared, before, after, -, readClasses, built⟩ := classes_of_program read
  exact ⟨declared, built, sound_classes readClasses⟩

/-- A program that was read from a document consists of sound classes. -/
theorem sound_program {config : Config} {document : Json} {log log' : Log} {loaded : Program}
    (read : program config document log = .ok loaded log') :
    Program.ofClasses config loaded.classes.values = .ok loaded ∧
      ∀ c ∈ loaded.classes.values, SoundClass c := by
  obtain ⟨classes, built, sound⟩ := exists_classes_of_program read
  obtain ⟨-, -, values, -⟩ := Program.addClasses_fields built
  have values : loaded.classes.values = classes := values
  rw [values]
  exact ⟨built, sound⟩

theorem built_program {config : Config} {document : Json} {log log' : Log} {loaded : Program}
    (read : program config document log = .ok loaded log')
    (distinct : ((loaded.classes.values.flatMap (·.methods)).map (·.signature)).Nodup) :
    loaded.Built := by
  obtain ⟨built, sound⟩ := sound_program read
  refine .ofClasses (fun c isClass => ?_) distinct built
  obtain ⟨shell, methods, made, -⟩ := sound c isClass
  exact ⟨shell, methods, made⟩

theorem soundBody_of_program {config : Config} {document : Json} {log log' : Log}
    {loaded : Program} (read : program config document log = .ok loaded log') {p : Procedure}
    (listed : p ∈ loaded.applicationProcedures) : SoundBody p.body := by
  obtain ⟨c, isApplication, isMethod⟩ := List.mem_flatMap.mp listed
  obtain ⟨shell, methods, made, sound⟩ :=
    (sound_program read).2 c (List.mem_filter.mp isApplication).1
  exact sound p (ClassDecl.mem_of_make made isMethod)

end Description

end CallWeight
