import CallWeight.Proofs.ClassReading
import CallWeight.Proofs.Reordering

/-! # Descriptions in another order

A description may list its classes, and every class its methods, in any order. As long as no two
methods share a signature, and no two methods of one class share a key, the program that is read from
a description is a reordering of the program that is read from the description in another order: what
is read for a class or a method does not depend on what was read before it.
-/

namespace CallWeight

/-! ## Making classes and programs -/

namespace ClassDecl

theorem insertMethod_of_new {p : Procedure} {methods : List Procedure}
    (isNew : p.subsignature.key ∉ methods.map (·.subsignature.key)) :
    insertMethod p methods = methods ++ [p] := by
  induction methods with
  | nil => rfl
  | cons q rest ih =>
      simp only [List.map_cons, List.mem_cons, not_or] at isNew
      have different : ¬ q.subsignature.sameKey p.subsignature := by
        simpa [Atom.sameKey] using Ne.symm isNew.1
      rw [insertMethod, if_neg different, ih isNew.2, List.cons_append]

theorem addMethods_eq {c : ClassDecl} {methods : List Procedure}
    (owned : ∀ p ∈ methods, p.declaringClass.equals c.name)
    (distinct : ((c.methods ++ methods).map (·.subsignature.key)).Nodup) :
    methods.foldlM addMethod c = .ok { c with methods := c.methods ++ methods } := by
  induction methods generalizing c with
  | nil => simp [pure, Except.pure]
  | cons p rest ih =>
      have isNew : p.subsignature.key ∉ c.methods.map (·.subsignature.key) := by
        rw [List.map_append, List.map_cons] at distinct
        exact fun old => List.disjoint_of_nodup_append distinct old List.mem_cons_self
      have added : c.addMethod p = .ok { c with methods := c.methods ++ [p] } := by
        rw [addMethod, if_pos (owned p List.mem_cons_self), insertMethod_of_new isNew]
      rw [List.foldlM_cons, added]
      refine (ih (c := { c with methods := c.methods ++ [p] })
        (fun q inRest => owned q (List.mem_cons_of_mem _ inRest)) ?_).trans ?_
      · rwa [List.append_assoc, List.singleton_append]
      · rw [List.append_assoc, List.singleton_append]

theorem owned_of_addMethods {before after : ClassDecl} {methods : List Procedure}
    (added : methods.foldlM addMethod before = .ok after) :
    ∀ p ∈ methods, p.declaringClass.equals before.name := by
  induction methods generalizing before with
  | nil => simp
  | cons p rest ih =>
      obtain ⟨middle, first, others⟩ := ok_of_exceptBind added
      unfold addMethod at first
      split at first
      · rename_i owned
        cases first
        have ownedRest := ih others
        exact List.forall_mem_cons.mpr ⟨owned, ownedRest⟩
      · cases first

/-- A class holds its methods in the order in which they are given, if no two of them share a key. -/
theorem make_eq {shell : ClassDecl} {methods : List Procedure}
    (owned : ∀ p ∈ methods, p.declaringClass.equals shell.name)
    (distinct : (methods.map (·.subsignature.key)).Nodup) :
    make shell methods = .ok { shell with
      superclass := if shell.superclass.equalsAtom shell.name then .null else shell.superclass
      methods } :=
  addMethods_eq owned distinct

theorem method?_eq_some_iff {c : ClassDecl} (distinct : (c.methods.map (·.subsignature.key)).Nodup)
    {subsignature : Atom} {p : Procedure} :
    c.method? subsignature = some p ↔ p ∈ c.methods ∧ p.subsignature.key = subsignature.key := by
  have isKey {q : Procedure} (found : c.method? subsignature = some q) :
      q.subsignature.key = subsignature.key := by
    simpa [Atom.sameKey] using List.find?_some found
  constructor
  · exact fun found => ⟨List.mem_of_find?_eq_some found, isKey found⟩
  · rintro ⟨isMethod, sameKey⟩
    have isThere : (c.method? subsignature).isSome :=
      List.find?_isSome.mpr ⟨p, isMethod, by simpa [Atom.sameKey] using sameKey⟩
    obtain ⟨q, found⟩ := Option.isSome_iff_exists.mp isThere
    rw [found, List.inj_on_of_nodup_map distinct (List.mem_of_find?_eq_some found) isMethod
      ((isKey found).trans sameKey.symm)]

theorem Reordered.of_perm {c d : ClassDecl} (bare : d.bare = c.bare)
    (methods : c.methods.Perm d.methods) (distinct : (c.methods.map (·.subsignature.key)).Nodup) :
    c.Reordered d where
  bare
  methods
  method? subsignature := by
    have distinctOther := (methods.map (·.subsignature.key)).nodup_iff.mp distinct
    refine Option.ext fun p => ?_
    rw [method?_eq_some_iff distinct, method?_eq_some_iff distinctOther, methods.mem_iff]

end ClassDecl

namespace Program

theorem class?_of_addClass {before after : Program} {first : ClassDecl}
    (added : before.addClass first = .ok after) :
    before.class? first.name = none ∧ ∀ {name c}, after.class? name = some c ↔
      before.class? name = some c ∨ c = first ∧ first.name.key = name.key := by
  unfold addClass at added
  split at added
  · cases added
  · rename_i isNew
    cases added
    have absent : before.class? first.name = none := by
      simpa [class?, OrderedMap.contains] using isNew
    refine ⟨absent, fun {name c} => ?_⟩
    simp only [class?, OrderedMap.get?_insert]
    by_cases same : first.name.key = name.key
    · have absentNow : before.classes.get? name.key = none := same ▸ absent
      simp [same, absentNow, eq_comm]
    · simp [same]

/-- Classes go into a program only under new names, and then they are found under them. -/
theorem class?_of_addClasses {classes : List ClassDecl} {before after : Program}
    (added : classes.foldlM addClass before = .ok after) :
    (classes.map (·.name.key)).Nodup ∧ (∀ c ∈ classes, before.class? c.name = none) ∧
      ∀ {name c}, after.class? name = some c ↔
        before.class? name = some c ∨ c ∈ classes ∧ c.name.key = name.key := by
  induction classes generalizing before with
  | nil =>
      cases added
      simp
  | cons first rest ih =>
      obtain ⟨middle, adds, others⟩ := ok_of_exceptBind added
      obtain ⟨absent, found⟩ := class?_of_addClass adds
      obtain ⟨distinct, absentRest, foundRest⟩ := ih others
      have notFirst : ∀ c ∈ rest, first.name.key ≠ c.name.key := by
        intro c inRest same
        have isThere := found.mpr (.inr ⟨rfl, same⟩)
        simp [absentRest c inRest] at isThere
      refine ⟨?_, ?_, fun {name c} => ?_⟩
      · rw [List.map_cons, List.nodup_cons, List.mem_map]
        exact ⟨fun ⟨c, inRest, same⟩ => notFirst c inRest same.symm, distinct⟩
      · refine List.forall_mem_cons.mpr ⟨absent, fun c inRest => ?_⟩
        refine Option.eq_none_iff_forall_ne_some.mpr fun d there => ?_
        have isThere := found.mpr (.inl there)
        simp [absentRest c inRest] at isThere
      · rw [foundRest, found, List.mem_cons, or_assoc]
        refine or_congr_right ?_
        constructor
        · rintro (⟨rfl, same⟩ | ⟨inRest, same⟩)
          · exact ⟨.inl rfl, same⟩
          · exact ⟨.inr inRest, same⟩
        · rintro ⟨rfl | inRest, same⟩
          · exact .inl ⟨rfl, same⟩
          · exact .inr ⟨inRest, same⟩

theorem exists_addClasses {classes : List ClassDecl} {before : Program}
    (distinct : (classes.map (·.name.key)).Nodup)
    (absent : ∀ c ∈ classes, before.class? c.name = none) :
    ∃ after, classes.foldlM addClass before = .ok after := by
  induction classes generalizing before with
  | nil => exact ⟨before, rfl⟩
  | cons first rest ih =>
      have isNew : ¬ before.classes.contains first.name.key := by
        have none := absent first List.mem_cons_self
        unfold class? at none
        simp [OrderedMap.contains, none]
      obtain ⟨middle, adds⟩ : ∃ middle, before.addClass first = .ok middle :=
        ⟨_, by rw [addClass, if_neg isNew]⟩
      rw [List.map_cons, List.nodup_cons] at distinct
      have absentRest : ∀ c ∈ rest, middle.class? c.name = none := by
        intro c inRest
        refine Option.eq_none_iff_forall_ne_some.mpr fun d there => ?_
        rcases (class?_of_addClass adds).2.mp there with old | ⟨-, same⟩
        · simp [absent c (List.mem_cons_of_mem _ inRest)] at old
        · exact distinct.1 (same ▸ List.mem_map_of_mem inRest)
      obtain ⟨after, others⟩ := ih distinct.2 absentRest
      exact ⟨after, by rw [List.foldlM_cons, adds]; exact others⟩

section Built

variable {config : Config} {classes : List ClassDecl} {program : Program}
  (built : ofClasses config classes = .ok program)

include built

theorem class?_eq_some_iff {name : Atom} {c : ClassDecl} :
    program.class? name = some c ↔ c ∈ classes ∧ c.name.key = name.key := by
  obtain ⟨-, -, found⟩ := class?_of_addClasses built
  exact found.trans (by simp [class?])

theorem get?_procedures_eq_some_iff
    (distinct : ((classes.flatMap (·.methods)).map (·.signature)).Nodup) {signature : Text}
    {p : Procedure} :
    program.procedures.get? signature = some p ↔
      p ∈ classes.flatMap (·.methods) ∧ p.signature = signature := by
  obtain ⟨-, -, -, table⟩ := addClasses_fields built
  rw [table]
  constructor
  · exact mem_of_get?_fileAll distinct
  · rintro ⟨isMethod, rfl⟩
    exact get?_fileAll_of_mem distinct isMethod

end Built

section Reordering

variable {config : Config} {classes middle others : List ClassDecl} {first second : Program}
  (perm : classes.Perm middle) (related : List.Forall₂ ClassDecl.Reordered middle others)
  (built : ofClasses config classes = .ok first) (builtOther : ofClasses config others = .ok second)

include perm related built builtOther

theorem class?_of_reordered (name : Atom) :
    Option.Rel ClassDecl.Reordered (first.class? name) (second.class? name) := by
  cases there : first.class? name with
  | some c =>
      obtain ⟨listed, named⟩ := (class?_eq_some_iff built).mp there
      obtain ⟨d, listedOther, same⟩ :=
        ClassDecl.exists_reordered_of_mem related (perm.mem_iff.mp listed)
      have thereOther : second.class? name = some d :=
        (class?_eq_some_iff builtOther).mpr ⟨listedOther, by rw [same.name, named]⟩
      rw [thereOther]
      exact .some same
  | none =>
      have absent : second.class? name = none := by
        refine Option.eq_none_iff_forall_ne_some.mpr fun d thereOther => ?_
        obtain ⟨listed, named⟩ := (class?_eq_some_iff builtOther).mp thereOther
        obtain ⟨c, inMiddle, same⟩ := ClassDecl.exists_reordered_of_mem
          (related.flip.imp fun _ _ reordered => reordered.symm) listed
        have isThere : first.class? name = some c :=
          (class?_eq_some_iff built).mpr ⟨perm.mem_iff.mpr inMiddle, by rw [same.name, named]⟩
        simp [there] at isThere
      rw [absent]
      exact .none

variable (distinct : ((classes.flatMap (·.methods)).map (·.signature)).Nodup)

include distinct

theorem procedure_of_reordered (signature : Text) :
    (second.procedure signature).map Prod.fst = (first.procedure signature).map Prod.fst := by
  have methods := (perm.flatMap_right (·.methods)).trans (ClassDecl.perm_methods_of_reordered related)
  have distinctOther := (methods.map (·.signature)).nodup_iff.mp distinct
  have sameTable : second.procedures.get? signature = first.procedures.get? signature := by
    refine Option.ext fun p => ?_
    rw [get?_procedures_eq_some_iff built distinct,
      get?_procedures_eq_some_iff builtOther distinctOther, methods.mem_iff]
  rw [map_fst_procedure, map_fst_procedure, sameTable]

/-- Programs of the same classes in another order are reorderings of each other. -/
theorem Reordered.ofClasses : first.Reordered second := by
  obtain ⟨config₁, -, values, -⟩ := addClasses_fields built
  obtain ⟨config₂, -, values₂, -⟩ := addClasses_fields builtOther
  have values : first.classes.values = classes := values
  have values₂ : second.classes.values = others := values₂
  exact
    { config := config₂.trans config₁.symm
      classes := ⟨middle, values ▸ perm, values₂ ▸ related⟩
      distinct := values ▸ (class?_of_addClasses built).1
      class? := class?_of_reordered perm related built builtOther
      procedure := procedure_of_reordered perm related built builtOther distinct }

end Reordering

end Program

namespace Description

/-! ## Reordered descriptions -/

/-- Whether two documents describe the same class, up to the order of its methods. -/
structure ReorderedClass (c d : Json) : Prop where
  fields : ∀ key, key ≠ Text.ofString "methods" → d.field? key = c.field? key
  methods : d.field? "methods" = c.field? "methods" ∨ ∃ listed others,
    c.field? "methods" = some (.arr listed) ∧ d.field? "methods" = some (.arr others) ∧
      listed.Perm others

/-- Whether two documents describe the same program, up to the order of its classes and of their
    methods. -/
def Reordered (document other : Json) : Prop :=
  ∃ listed middle others, document.field? "classes" = some (.arr listed) ∧
    other.field? "classes" = some (.arr others) ∧ listed.Perm middle ∧
    List.Forall₂ ReorderedClass middle others

def classDocuments (document : Json) : List Json :=
  match document.field? "classes" with
  | some (.arr documents) => documents
  | _ => []

/-- Whether no two methods share a signature, and no two methods of a class share a key. -/
structure DistinctMethods (document : Json) : Prop where
  signatures : ((classDocuments document).flatMap classSignatures).Nodup
  keys : ∀ c ∈ classDocuments document, ((methodDocuments c).map methodKey?).Nodup

namespace ReorderedClass

variable {c d : Json} (same : ReorderedClass c d)

include same

theorem nameOf_eq : nameOf d = nameOf c := by
  unfold nameOf
  rw [same.fields _ (by decide)]

theorem exists_items {listed : List Json} (items : itemsOf "methods" c = .ok listed) :
    ∃ others, itemsOf "methods" d = .ok others ∧ listed.Perm others := by
  rcases same.methods with unchanged | ⟨documents, others, given, givenOther, perm⟩
  · refine ⟨listed, ?_, .refl _⟩
    unfold itemsOf at items ⊢
    rwa [unchanged]
  · unfold itemsOf at items ⊢
    rw [given] at items
    rw [givenOther]
    cases items
    exact ⟨others, rfl, perm⟩

/-- Methods are read one by one, so the order in which they are listed is that of what is read. -/
theorem exists_readsClass {read : Class} (reads : ReadsClass c read) :
    ∃ entries, read.methods.Perm entries ∧ ReadsClass d { read with methods := entries } := by
  obtain ⟨listed, items, related⟩ := reads.methods
  obtain ⟨others, itemsOther, perm⟩ := same.exists_items items
  obtain ⟨entries, relatedOther, permEntries⟩ := List.perm_comp_forall₂ perm.symm related
  refine ⟨entries, permEntries.symm, ?_, ?_, ?_, ?_, ?_, others, itemsOther, ?_⟩
  · rw [same.nameOf_eq]
    exact reads.named
  · rw [same.nameOf_eq]
    exact reads.name
  · rw [same.fields _ (by decide)]
    exact reads.superclass
  · unfold itemsOf
    rw [same.fields _ (by decide)]
    exact reads.interfaces
  · unfold Json.hasTruthy
    rw [same.fields _ (by decide)]
    exact reads.interfaceMark
  · rw [same.nameOf_eq]
    exact relatedOther

end ReorderedClass

theorem ReadsClass.methodDocuments_eq {document : Json} {c : Class} (reads : ReadsClass document c) :
    List.Forall₂ (ReadsMethod (nameOf document)) (methodDocuments document) c.methods := by
  obtain ⟨listed, items, related⟩ := reads.methods
  unfold methodDocuments
  rwa [items]

/-- The declaration of a class whose methods all have keys of their own. -/
def Class.declaration (c : Class) (name : Atom) : ClassDecl where
  name
  superclass := if c.superclass.equalsAtom name then .null else c.superclass
  interfaces := c.interfaces
  interfaceMark := c.interfaceMark
  methods := c.procedures name

theorem declare_eq {c : Class} {name : Atom}
    (owned : ∀ p ∈ c.procedures name, p.declaringClass.equals name)
    (distinct : (c.methods.map (·.1.key)).Nodup) : c.declare name = .ok (c.declaration name) := by
  refine ClassDecl.make_eq owned ?_
  rw [List.map_map]
  exact distinct

section Declared

variable {check : Text → Except Fault Unit}

theorem Declares.exists_declaration {document : Json} {declared : ClassDecl}
    (declares : Declares check document declared)
    (distinct : ((methodDocuments document).map methodKey?).Nodup) :
    ∃ c text, ReadsClass document c ∧ c.name = .text text ∧ check text = .ok () ∧
      (∀ p ∈ c.procedures (.text text), p.declaringClass.equals (.text text)) ∧
      (c.methods.map (·.1.key)).Nodup ∧ declared = c.declaration (.text text) := by
  obtain ⟨⟨name, c⟩, ⟨reads, named⟩, accepted⟩ := declares
  obtain ⟨text, rfl, passes, made⟩ := accept_eq_ok_iff.mp accepted
  have owned : ∀ p ∈ c.procedures (.text text), p.declaringClass.equals (.text text) :=
    ClassDecl.owned_of_addMethods made
  have distinctKeys : (c.methods.map (·.1.key)).Nodup := by
    rw [map_methodKey? reads.methodDocuments_eq] at distinct
    exact List.Nodup.of_map some (by rwa [List.map_map])
  rw [declare_eq owned distinctKeys] at made
  cases made
  exact ⟨c, text, reads, named, passes, owned, distinctKeys, rfl⟩

/-- The signatures of the methods of a class are those that its description lists. -/
theorem Declares.signatures {document : Json} {declared : ClassDecl}
    (declares : Declares check document declared)
    (distinct : ((methodDocuments document).map methodKey?).Nodup) :
    declared.methods.map (·.signature) = classSignatures document := by
  obtain ⟨c, text, reads, named, -, -, -, rfl⟩ := declares.exists_declaration distinct
  have related := reads.methodDocuments_eq
  have sameName := reads.name.symm.trans named
  unfold classSignatures
  rw [sameName] at related ⊢
  rw [map_signatureOf related]
  exact List.map_map

theorem Declares.exists_reordered {document other : Json} {declared : ClassDecl}
    (declares : Declares check document declared)
    (distinct : ((methodDocuments document).map methodKey?).Nodup)
    (same : ReorderedClass document other) :
    ∃ otherDeclared, Declares check other otherDeclared ∧ declared.Reordered otherDeclared := by
  obtain ⟨c, text, reads, named, passes, owned, distinctKeys, rfl⟩ :=
    declares.exists_declaration distinct
  obtain ⟨entries, perm, readsOther⟩ := same.exists_readsClass reads
  let d : Class := { c with methods := entries }
  have methods : (c.procedures (.text text)).Perm (d.procedures (.text text)) := perm.map _
  have ownedOther : ∀ p ∈ d.procedures (.text text), p.declaringClass.equals (.text text) :=
    fun p listed => owned p (methods.mem_iff.mpr listed)
  have distinctOther : (entries.map (·.1.key)).Nodup := (perm.map _).nodup_iff.mp distinctKeys
  have made : d.declare (.text text) = .ok (d.declaration (.text text)) :=
    declare_eq ownedOther distinctOther
  refine ⟨d.declaration (.text text), ⟨(.text text, d), ⟨readsOther, named⟩, ?_⟩, ?_⟩
  · exact accept_eq_ok_iff.mpr ⟨text, rfl, passes, made⟩
  · refine .of_perm rfl methods ?_
    rw [Class.declaration, Class.procedures, List.map_map]
    exact distinctKeys

theorem map_signatures_of_declares {documents : List Json} {declared : List ClassDecl}
    (related : List.Forall₂ (Declares check) documents declared)
    (distinct : ∀ c ∈ documents, ((methodDocuments c).map methodKey?).Nodup) :
    (declared.flatMap (·.methods)).map (·.signature) = documents.flatMap classSignatures := by
  induction related with
  | nil => rfl
  | cons first _ ih =>
      obtain ⟨distinctFirst, distinctRest⟩ := List.forall_mem_cons.mp distinct
      rw [List.flatMap_cons, List.map_append, List.flatMap_cons, first.signatures distinctFirst,
        ih distinctRest]

theorem exists_reordered_of_declares {documents others : List Json} {declared : List ClassDecl}
    (same : List.Forall₂ ReorderedClass documents others)
    (related : List.Forall₂ (Declares check) documents declared)
    (distinct : ∀ c ∈ documents, ((methodDocuments c).map methodKey?).Nodup) :
    ∃ otherDeclared, List.Forall₂ (Declares check) others otherDeclared ∧
      List.Forall₂ ClassDecl.Reordered declared otherDeclared := by
  induction same generalizing declared with
  | nil =>
      cases related
      exact ⟨[], .nil, .nil⟩
  | cons sameFirst _ ih =>
      cases related with
      | cons first rest =>
          obtain ⟨distinctFirst, distinctRest⟩ := List.forall_mem_cons.mp distinct
          obtain ⟨d, declares, reordered⟩ := first.exists_reordered distinctFirst sameFirst
          obtain ⟨others, declaresRest, reorderedRest⟩ := ih rest distinctRest
          exact ⟨d :: others, .cons declares declaresRest, .cons reordered reorderedRest⟩

end Declared

/-- A description in another order is accepted too, and its program is a reordering. -/
theorem exists_reordered {config : Config} {document other : Json} {log log' : Log}
    {loaded : Program} (read : program config document log = .ok loaded log')
    (distinct : DistinctMethods document) (reordered : Reordered document other) :
    ((loaded.classes.values.flatMap (·.methods)).map (·.signature)).Nodup ∧
      ∃ otherLoaded, Gives (program config other) otherLoaded ∧ loaded.Reordered otherLoaded := by
  obtain ⟨listed, middle, others, given, givenOther, perm, same⟩ := reordered
  obtain ⟨documents, declared, before, after, givenAgain, readClasses, built⟩ :=
    classes_of_program read
  cases given.symm.trans givenAgain
  have isListed : classDocuments document = listed := by rw [classDocuments, given]
  have distinctKeys := isListed ▸ distinct.keys
  have related := declares_of_classes readClasses
  have signatures := map_signatures_of_declares related distinctKeys
  have distinctSignatures : ((declared.flatMap (·.methods)).map (·.signature)).Nodup := by
    rw [signatures, ← isListed]
    exact distinct.signatures
  -- First the classes change places, then each of them the order of its methods.
  obtain ⟨inMiddle, relatedMiddle, permDeclared⟩ := List.perm_comp_forall₂ perm.symm related
  obtain ⟨otherDeclared, relatedOther, reorderedOther⟩ := exists_reordered_of_declares same
    relatedMiddle fun c isClass => distinctKeys c (perm.mem_iff.mpr isClass)
  have distinctNames : (otherDeclared.map (·.name.key)).Nodup := by
    have sameNames := congrArg (List.map (·.name.key))
      (ClassDecl.map_bare_of_reordered reorderedOther)
    rw [List.map_map, List.map_map] at sameNames
    rw [show otherDeclared.map (·.name.key) = inMiddle.map (·.name.key) from sameNames]
    exact (permDeclared.map _).nodup_iff.mpr (Program.class?_of_addClasses built).1
  obtain ⟨otherLoaded, builtOther⟩ : ∃ otherLoaded,
      Program.ofClasses config otherDeclared = .ok otherLoaded :=
    Program.exists_addClasses distinctNames fun c _ => rfl
  obtain ⟨-, -, values, -⟩ := Program.addClasses_fields built
  refine ⟨?_, otherLoaded, ?_, ?_⟩
  · rw [values]
    exact distinctSignatures
  · exact gives_program givenOther (gives_classes relatedOther distinctNames) builtOther
  · exact .ofClasses permDeclared.symm reorderedOther built builtOther distinctSignatures

end Description

end CallWeight
