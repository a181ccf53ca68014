import CallWeight.Proofs.AssembledPrograms
import CallWeight.Proofs.PackagePrefixes

/-! # Methods that a description loses

A class holds one method per key and a program one procedure per signature. A description may list several
for one of them: all of these are read, and the last one replaces the others without a word. So every
method that is listed has a procedure of its own exactly if no two methods share a signature and no two
methods of one class share a key. For class names without a colon and a blank, and subsignatures that are
texts, this comes down to no class listing a subsignature twice.
-/

namespace CallWeight

/-! ## The last of its kind -/

/-- Whether an item of a list is the last one with its value. -/
def LastBy {α β : Type} (value : α → β) (items : List α) (item : α) : Prop :=
  ∃ before after, items = before ++ item :: after ∧ ∀ other ∈ after, value other ≠ value item

section LastBy

variable {α β : Type} {value : α → β} {items : List α} {item last : α}

theorem not_lastBy_nil : ¬ LastBy value [] item := by
  rintro ⟨before, after, split, -⟩
  simp at split

theorem lastBy_concat :
    LastBy value (items ++ [last]) item ↔
      item = last ∨ LastBy value items item ∧ value item ≠ value last := by
  constructor
  · rintro ⟨before, after, split, others⟩
    rcases List.eq_nil_or_concat after with rfl | ⟨after, other, rfl⟩
    · have same := List.append_inj_right' split rfl
      exact .inl (List.cons.inj same).1.symm
    · have same : items ++ [last] = (before ++ item :: after) ++ [other] := by simpa using split
      obtain ⟨rfl, isLast⟩ := List.append_inj' same rfl
      cases isLast
      refine .inr ⟨⟨before, after, rfl, fun x inAfter => others x ?_⟩,
        Ne.symm (others last (by simp))⟩
      simp [inAfter]
  · rintro (rfl | ⟨⟨before, after, rfl, others⟩, different⟩)
    · exact ⟨items, [], rfl, by simp⟩
    · refine ⟨before, after ++ [last], by simp, fun x listed => ?_⟩
      rcases List.mem_append.mp listed with inAfter | isLast
      · exact others x inAfter
      · exact List.mem_singleton.mp isLast ▸ Ne.symm different

end LastBy

namespace ClassDecl

/-! ## The methods of a class -/

/-- What is left of a list of methods when each takes the place of one under the same key. -/
def keepLast (methods : List Procedure) : List Procedure :=
  methods.foldl (fun kept p => insertMethod p kept) []

theorem keepLast_concat (methods : List Procedure) (p : Procedure) :
    keepLast (methods ++ [p]) = insertMethod p (keepLast methods) := by
  simp [keepLast]

theorem methods_of_make {shell c : ClassDecl} {methods : List Procedure}
    (made : make shell methods = .ok c) : c.methods = keepLast methods := by
  have added (before after : ClassDecl) (adds : methods.foldlM addMethod before = .ok after) :
      after.methods = methods.foldl (fun kept p => insertMethod p kept) before.methods := by
    clear made
    induction methods generalizing before with
    | nil =>
        cases adds
        rfl
    | cons p rest ih =>
        obtain ⟨middle, first, others⟩ := ok_of_exceptBind adds
        unfold addMethod at first
        split at first
        · cases first
          exact ih _ others
        · cases first
  exact added _ c made

theorem nodup_keys_insertMethod {p : Procedure} {methods : List Procedure}
    (distinct : (methods.map (·.subsignature.key)).Nodup) :
    ((insertMethod p methods).map (·.subsignature.key)).Nodup := by
  rw [map_key_insertMethod]
  split
  · exact distinct
  · rename_i isNew
    exact List.nodup_append_comm.mp (List.nodup_cons.mpr ⟨isNew, distinct⟩)

theorem nodup_keys_keepLast (methods : List Procedure) :
    ((keepLast methods).map (·.subsignature.key)).Nodup := by
  induction methods using List.reverseRecOn with
  | nil => exact List.nodup_nil
  | append_singleton methods p ih =>
      rw [keepLast_concat]
      exact nodup_keys_insertMethod ih

theorem mem_insertMethod_iff {p q : Procedure} {methods : List Procedure}
    (distinct : (methods.map (·.subsignature.key)).Nodup) :
    q ∈ insertMethod p methods ↔
      q = p ∨ q ∈ methods ∧ q.subsignature.key ≠ p.subsignature.key := by
  induction methods with
  | nil => simp [insertMethod]
  | cons first rest ih =>
      obtain ⟨isNew, distinct⟩ := List.nodup_cons.mp distinct
      unfold insertMethod
      by_cases same : first.subsignature.key = p.subsignature.key
      · have others {r : Procedure} (inRest : r ∈ rest) : r.subsignature.key ≠ p.subsignature.key :=
          fun sameKey => isNew (List.mem_map.mpr ⟨r, inRest, sameKey.trans same.symm⟩)
        rw [if_pos (by simpa [Atom.sameKey] using same)]
        simp only [List.mem_cons]
        constructor
        · rintro (rfl | inRest)
          · exact .inl rfl
          · exact .inr ⟨.inr inRest, others inRest⟩
        · rintro (rfl | ⟨rfl | inRest, different⟩)
          · exact .inl rfl
          · exact absurd same different
          · exact .inr inRest
      · rw [if_neg (by simpa [Atom.sameKey] using same)]
        simp only [List.mem_cons, ih distinct]
        constructor
        · rintro (rfl | rfl | ⟨inRest, different⟩)
          · exact .inr ⟨.inl rfl, same⟩
          · exact .inl rfl
          · exact .inr ⟨.inr inRest, different⟩
        · rintro (rfl | ⟨rfl | inRest, different⟩)
          · exact .inr (.inl rfl)
          · exact .inl rfl
          · exact .inr (.inr ⟨inRest, different⟩)

/-- A class holds the last method under each key. -/
theorem mem_keepLast_iff {methods : List Procedure} {p : Procedure} :
    p ∈ keepLast methods ↔ LastBy (·.subsignature.key) methods p := by
  induction methods using List.reverseRecOn with
  | nil => simpa [keepLast] using not_lastBy_nil
  | append_singleton methods q ih =>
      rw [keepLast_concat, mem_insertMethod_iff (nodup_keys_keepLast methods), ih, lastBy_concat]

theorem keepLast_subset (methods : List Procedure) : keepLast methods ⊆ methods := by
  intro p kept
  obtain ⟨before, after, rfl, -⟩ := mem_keepLast_iff.mp kept
  simp

theorem keepLast_eq {methods : List Procedure}
    (distinct : (methods.map (·.subsignature.key)).Nodup) : keepLast methods = methods := by
  induction methods using List.reverseRecOn with
  | nil => rfl
  | append_singleton methods p ih =>
      rw [List.map_append, List.map_singleton] at distinct
      obtain ⟨isNew, distinct⟩ := List.nodup_cons.mp (List.nodup_append_comm.mp distinct)
      rw [keepLast_concat, ih distinct, insertMethod_of_new isNew]

/-- If all methods are kept and have different signatures, they have different keys. -/
theorem nodup_keys_of_kept {methods : List Procedure}
    (distinct : (methods.map (·.signature)).Nodup) (kept : methods ⊆ keepLast methods) :
    (methods.map (·.subsignature.key)).Nodup :=
  List.Nodup.map_on (fun _ isP _ isQ sameKey =>
    List.inj_on_of_nodup_map (nodup_keys_keepLast methods) (kept isP) (kept isQ) sameKey)
    (List.Nodup.of_map _ distinct)

end ClassDecl

namespace Program

/-! ## The procedures of a program -/

/-- A table holds the last procedure under each signature. -/
theorem get?_fileAll_iff {methods : List Procedure} {signature : Text} {p : Procedure} :
    (fileAll .empty methods).get? signature = some p ↔
      p.signature = signature ∧ LastBy (·.signature) methods p := by
  induction methods using List.reverseRecOn with
  | nil => simpa [fileAll] using fun _ => not_lastBy_nil
  | append_singleton methods q ih =>
      have filed : fileAll .empty (methods ++ [q]) =
          (fileAll .empty methods).insert q.signature q := by simp [fileAll]
      rw [filed, OrderedMap.get?_insert, lastBy_concat]
      by_cases same : q.signature = signature
      · rw [if_pos same]
        constructor
        · rintro ⟨⟩
          exact ⟨same, .inl rfl⟩
        · rintro ⟨isSignature, rfl | ⟨-, different⟩⟩
          · rfl
          · exact absurd (isSignature.trans same.symm) different
      · rw [if_neg same, ih]
        constructor
        · rintro ⟨isSignature, last⟩
          exact ⟨isSignature, .inr ⟨last, isSignature ▸ Ne.symm same⟩⟩
        · rintro ⟨isSignature, rfl | ⟨last, -⟩⟩
          · exact absurd isSignature same
          · exact ⟨isSignature, last⟩

/-- A program has a procedure if it need not be made up. -/
theorem procedure_eq_iff {program : Program} {signature : Text} {p : Procedure} :
    program.procedure signature = .ok (p, program) ↔ program.procedures.get? signature = some p := by
  unfold procedure
  cases held : program.procedures.get? signature with
  | some q => simp
  | none =>
      refine iff_of_false (fun asked => ?_) (by simp)
      obtain ⟨q, made, asked⟩ := ok_of_exceptBind asked
      have same := congrArg Program.procedures (Prod.mk.inj (Except.ok.inj asked)).2
      rw [← same, OrderedMap.get?_insert, if_pos rfl] at held
      cases held

section Lists

variable {built : List (List Procedure)} {declared : List ClassDecl}
  (kept : List.Forall₂ (fun methods c => c.methods = ClassDecl.keepLast methods) built declared)

include kept

theorem flatMap_methods_subset : declared.flatMap (·.methods) ⊆ built.flatten := by
  induction kept with
  | nil => exact List.Subset.refl _
  | cons first _ ih =>
      rw [List.flatMap_cons, List.flatten_cons, first]
      exact List.append_subset.mpr
        ⟨List.Subset.trans (ClassDecl.keepLast_subset _) (List.subset_append_left _ _),
          List.Subset.trans ih (List.subset_append_right _ _)⟩

/-- If all methods are kept by some class and have different signatures, then each class has kept all of
    its own. -/
theorem nodup_keys_of_all_kept (distinct : (built.flatten.map (·.signature)).Nodup)
    (all : built.flatten ⊆ declared.flatMap (·.methods)) :
    ∀ methods ∈ built, (methods.map (·.subsignature.key)).Nodup := by
  induction kept with
  | nil => simp
  | @cons methods c built declared first rest ih =>
      rw [List.flatten_cons, List.map_append] at distinct
      obtain ⟨distinctFirst, distinctRest, apart⟩ := List.nodup_append.mp distinct
      have notBoth {p : Procedure} (here : p ∈ methods) (there : p ∈ built.flatten) : False :=
        apart _ (List.mem_map_of_mem here) _ (List.mem_map_of_mem there) rfl
      have subset := flatMap_methods_subset rest
      have keptFirst : c.methods ⊆ methods := first ▸ ClassDecl.keepLast_subset methods
      refine List.forall_mem_cons.mpr ⟨ClassDecl.nodup_keys_of_kept distinctFirst fun p here => ?_,
        ih distinctRest fun p there => ?_⟩
      · rcases List.mem_append.mp (all (List.mem_append_left _ here)) with isKept | elsewhere
        · exact first ▸ isKept
        · exact (notBoth here (subset elsewhere)).elim
      · rcases List.mem_append.mp (all (List.mem_append_right _ there)) with isKept | elsewhere
        · exact (notBoth (keptFirst isKept) there).elim
        · exact elsewhere

theorem flatMap_methods_eq (distinct : ∀ methods ∈ built, (methods.map (·.subsignature.key)).Nodup) :
    declared.flatMap (·.methods) = built.flatten := by
  induction kept with
  | nil => rfl
  | cons first _ ih =>
      obtain ⟨distinctFirst, distinctRest⟩ := List.forall_mem_cons.mp distinct
      rw [List.flatMap_cons, List.flatten_cons, first, ClassDecl.keepLast_eq distinctFirst,
        ih distinctRest]

end Lists

end Program

namespace Description

/-! ## What is built from a description -/

/-- Whether a procedure is what is built from the description of a method: it has the name of the class,
    and the subsignature, the body and the loops that are read there. -/
def Builds (className document : Json) (p : Procedure) : Prop :=
  ∃ name entry, className = .atom name ∧ ReadsMethod className document entry ∧
    p = entry.2.declare name entry.1

/-- Whether procedures are what is built from the methods that a class lists, one for each. -/
def BuildsClass (document : Json) : List Procedure → Prop :=
  List.Forall₂ (Builds (nameOf document)) (methodDocuments document)

theorem Builds.signature {className document : Json} {p : Procedure}
    (builds : Builds className document p) : p.signature = signatureOf className document := by
  obtain ⟨name, entry, rfl, reads, rfl⟩ := builds
  obtain ⟨isDeclared, given⟩ := reads.names
  rw [signatureOf, given, Procedure.signature, Method.declare, isDeclared]
  rfl

theorem Builds.key {className document : Json} {p : Procedure}
    (builds : Builds className document p) : some p.subsignature.key = methodKey? document := by
  obtain ⟨name, entry, rfl, reads, rfl⟩ := builds
  rw [methodKey?, reads.names.2]
  rfl

theorem BuildsClass.signatures {document : Json} {methods : List Procedure}
    (builds : BuildsClass document methods) :
    methods.map (·.signature) = classSignatures document :=
  map_eq_of_forall₂ (fun _ _ => Builds.signature) builds

theorem BuildsClass.keys {document : Json} {methods : List Procedure}
    (builds : BuildsClass document methods) :
    methods.map (fun p => some p.subsignature.key) = (methodDocuments document).map methodKey? :=
  map_eq_of_forall₂ (fun _ _ => Builds.key) builds

theorem Declares.exists_built {check : Text → Except Fault Unit} {document : Json} {c : ClassDecl}
    (declares : Declares check document c) :
    ∃ methods, BuildsClass document methods ∧ c.methods = ClassDecl.keepLast methods := by
  obtain ⟨⟨name, read⟩, ⟨reads, named⟩, accepted⟩ := declares
  obtain ⟨text, rfl, -, made⟩ := accept_eq_ok_iff.mp accepted
  have isName : nameOf document = .text text := reads.name.symm.trans named
  refine ⟨read.procedures (.text text), ?_, ClassDecl.methods_of_make made⟩
  refine List.forall₂_map_right_iff.mpr (reads.methodDocuments_eq.imp fun method entry readsMethod => ?_)
  exact ⟨.text text, entry, isName, readsMethod, rfl⟩

/-- Whether no two methods share a signature or a key can be told from what is built. -/
theorem distinctMethods_iff {document : Json} {built : List (List Procedure)}
    (builds : List.Forall₂ BuildsClass (classDocuments document) built) :
    DistinctMethods document ↔ (built.flatten.map (·.signature)).Nodup ∧
      ∀ methods ∈ built, (methods.map (·.subsignature.key)).Nodup := by
  have signatures : built.map (List.map (·.signature)) =
      (classDocuments document).map classSignatures :=
    map_eq_of_forall₂ (fun _ _ builds => builds.signatures) builds
  have keys : built.map (List.map fun p => some p.subsignature.key) =
      (classDocuments document).map fun c => (methodDocuments c).map methodKey? :=
    map_eq_of_forall₂ (fun _ _ builds => builds.keys) builds
  have sameKeys : (∀ c ∈ classDocuments document, ((methodDocuments c).map methodKey?).Nodup) ↔
      ∀ methods ∈ built, (methods.map (·.subsignature.key)).Nodup := by
    rw [← List.forall_mem_map (P := List.Nodup), ← keys, List.forall_mem_map]
    refine forall₂_congr fun methods _ => ?_
    have split : methods.map (fun p => some p.subsignature.key) =
        (methods.map (·.subsignature.key)).map some := List.map_map.symm
    rw [split, List.nodup_map_iff (Option.some_injective _)]
  rw [List.map_flatten, signatures, ← List.flatMap_def, ← sameKeys]
  exact ⟨fun distinct => ⟨distinct.signatures, distinct.keys⟩,
    fun distinct => ⟨distinct.1, distinct.2⟩⟩

section Loaded

variable {config : Config} {document : Json} {log log' : Log} {loaded : Program}
  (read : program config document log = .ok loaded log')

include read

theorem exists_built : ∃ built, List.Forall₂ BuildsClass (classDocuments document) built ∧
    List.Forall₂ (fun methods c => c.methods = ClassDecl.keepLast methods) built
      loaded.classes.values ∧
    loaded.procedures = Program.fileAll .empty (loaded.classes.values.flatMap (·.methods)) := by
  obtain ⟨documents, declared, before, after, given, readClasses, built⟩ := classes_of_program read
  obtain ⟨-, -, values, table⟩ := Program.addClasses_fields built
  have values : loaded.classes.values = declared := values
  have related := declares_of_classes readClasses
  obtain ⟨methods, builds, kept⟩ := forall₂_comp.mp (related.imp fun _ _ => Declares.exists_built)
  rw [classDocuments, given, values]
  exact ⟨methods, builds, kept, table⟩

/-- No two classes have one name. -/
theorem nodup_names : ((classDocuments document).map nameOf).Nodup := by
  obtain ⟨documents, declared, before, after, given, readClasses, built⟩ := classes_of_program read
  have names : declared.map (fun c => Json.atom c.name) = documents.map nameOf := by
    refine map_eq_of_forall₂ (fun c d declares => ?_) (declares_of_classes readClasses)
    obtain ⟨⟨name, read⟩, ⟨reads, named⟩, accepted⟩ := declares
    obtain ⟨text, rfl, -, made⟩ := accept_eq_ok_iff.mp accepted
    rw [ClassDecl.name_of_make made, ← reads.name, named]
  have distinct : (declared.map (·.name)).Nodup := by
    refine List.Nodup.of_map Atom.key ?_
    rw [List.map_map]
    exact (Program.class?_of_addClasses built).1
  rw [classDocuments, given, ← names]
  exact nodup_map_of_determines distinct fun c _ d _ same => Json.atom.inj same

end Loaded

/-! ## Plain names -/

/-- Whether the name of a class has no colon and blank in it, and its subsignatures are texts. -/
structure PlainClass (c : Json) : Prop where
  name : ∃ name, nameOf c = .text name ∧ Text.occursIn ": " name = false
  texts : ∀ m ∈ methodDocuments c, ∃ subsignature, m.field? "subsignature" = some (.text subsignature)

def Plain (document : Json) : Prop := ∀ c ∈ classDocuments document, PlainClass c

theorem signatureOf_eq {m : Json} {name subsignature : Text}
    (given : m.field? "subsignature" = some (.text subsignature)) :
    signatureOf (.text name) m = Signature.make name subsignature := by
  rw [signatureOf, given]
  rfl

namespace PlainClass

variable {c d : Json} (plain : PlainClass c)

include plain

theorem exists_make {signature : Text} (listed : signature ∈ classSignatures c) :
    ∃ name subsignature, nameOf c = .text name ∧ Text.occursIn ": " name = false ∧
      signature = Signature.make name subsignature := by
  obtain ⟨name, isName, noSeparator⟩ := plain.name
  obtain ⟨m, isMethod, rfl⟩ := List.mem_map.mp listed
  obtain ⟨subsignature, given⟩ := plain.texts m isMethod
  exact ⟨name, subsignature, isName, noSeparator, isName ▸ signatureOf_eq given⟩

/-- Classes of different names have no signature in common. -/
theorem disjoint_signatures (plainOther : PlainClass d) (different : nameOf c ≠ nameOf d) :
    List.Disjoint (classSignatures c) (classSignatures d) := by
  intro signature inC inD
  obtain ⟨name, first, isName, noSeparator, isSignature⟩ := plain.exists_make inC
  obtain ⟨other, second, isOther, noSeparatorOther, isSignatureOther⟩ := plainOther.exists_make inD
  have same := isSignature.symm.trans isSignatureOther
  -- Each name starts the other one, so the classes would have one name.
  have sameName : name = other := (Signature.prefix_of_make_eq noSeparator same).eq_of_length_le
    (Signature.prefix_of_make_eq noSeparatorOther same.symm).length_le
  exact different (by rw [isName, isOther, sameName])

variable (distinct : ((methodDocuments c).map (·.field? "subsignature")).Nodup)

include distinct

theorem nodup_keys : ((methodDocuments c).map methodKey?).Nodup := by
  refine nodup_map_of_determines distinct fun m isM n isN same => ?_
  obtain ⟨first, given⟩ := plain.texts m isM
  obtain ⟨second, givenOther⟩ := plain.texts n isN
  rw [given, givenOther]
  simpa [methodKey?, given, givenOther, Atom.key] using same

theorem nodup_signatures : (classSignatures c).Nodup := by
  refine nodup_map_of_determines distinct fun m isM n isN same => ?_
  obtain ⟨name, isName, -⟩ := plain.name
  obtain ⟨first, given⟩ := plain.texts m isM
  obtain ⟨second, givenOther⟩ := plain.texts n isN
  rw [isName, signatureOf_eq given, signatureOf_eq givenOther] at same
  rw [given, givenOther]
  simpa [Signature.make] using same

end PlainClass

/-- With plain names, only a subsignature that a class lists twice makes two methods share a signature. -/
theorem Plain.distinctMethods_iff {config : Config} {document : Json} {log log' : Log}
    {loaded : Program} (plain : Plain document)
    (read : program config document log = .ok loaded log') :
    DistinctMethods document ↔ ∀ c ∈ classDocuments document,
      ((methodDocuments c).map (·.field? "subsignature")).Nodup := by
  constructor
  · intro distinct c isClass
    refine nodup_map_of_determines (distinct.keys c isClass) fun m _ n _ same => ?_
    rw [methodKey?, methodKey?, same]
  · intro distinct
    have apart : (classDocuments document).Pairwise fun c d =>
        List.Disjoint (classSignatures c) (classSignatures d) :=
      (List.pairwise_map.mp (nodup_names read)).imp_of_mem fun isC isD different =>
        (plain _ isC).disjoint_signatures (plain _ isD) different
    exact ⟨List.nodup_flatMap.mpr
        ⟨fun c isClass => (plain c isClass).nodup_signatures (distinct c isClass), apart⟩,
      fun c isClass => (plain c isClass).nodup_keys (distinct c isClass)⟩

/-- A program keeps every method that its description lists if and only if no two methods share a signature
    and no two methods of one class share a key. In general a class holds the last method under each key,
    and a signature names the last one of the methods that the classes hold; with plain names, methods get
    lost exactly if a class lists a subsignature twice. -/
theorem methods_are_kept_iff_distinct {config : Config} {document : Json} {log log' : Log}
    {loaded : Program} (read : program config document log = .ok loaded log') :
    ∃ built, List.Forall₂ BuildsClass (classDocuments document) built ∧
      List.Forall₂ (fun methods c => ∀ p, p ∈ c.methods ↔ LastBy (·.subsignature.key) methods p)
        built loaded.classes.values ∧
      (∀ signature p, loaded.procedure signature = .ok (p, loaded) ↔ p.signature = signature ∧
        LastBy (·.signature) (loaded.classes.values.flatMap (·.methods)) p) ∧
      ((built.flatten.map (·.signature)).Nodup ∧
          (∀ p ∈ built.flatten, loaded.procedure p.signature = .ok (p, loaded)) ↔
        DistinctMethods document) ∧
      (Plain document → (DistinctMethods document ↔ ∀ c ∈ classDocuments document,
        ((methodDocuments c).map (·.field? "subsignature")).Nodup)) := by
  obtain ⟨built, builds, kept, table⟩ := exists_built read
  have named (signature : Text) (p : Procedure) :
      loaded.procedure signature = .ok (p, loaded) ↔ p.signature = signature ∧
        LastBy (·.signature) (loaded.classes.values.flatMap (·.methods)) p := by
    rw [Program.procedure_eq_iff, table, Program.get?_fileAll_iff]
  refine ⟨built, builds, kept.imp fun methods c isKept p => ?_, named, ?_,
    fun plain => plain.distinctMethods_iff read⟩
  · rw [isKept, ClassDecl.mem_keepLast_iff]
  · rw [distinctMethods_iff builds]
    refine and_congr_right fun distinct => ⟨fun found => ?_, fun keys p listed => ?_⟩
    · refine Program.nodup_keys_of_all_kept kept distinct fun p listed => ?_
      obtain ⟨before, after, split, -⟩ := ((named _ _).mp (found p listed)).2
      rw [split]
      exact List.mem_append_right _ List.mem_cons_self
    · have all := Program.flatMap_methods_eq kept keys
      rw [Program.procedure_eq_iff, table, all]
      exact Program.get?_fileAll_of_mem distinct listed

/-- The description of a method. -/
def methodEntry (subsignature : Text) (statements : List Json) : Json :=
  .obj [("subsignature", .text subsignature), ("statements", .arr statements)]

/-- A description of one class. -/
def oneClass (methods : List Json) : Json :=
  .obj [("classes", .arr [.obj [("name", .text "app.A"), ("methods", .arr methods)]])]

/-- A call of a procedure that no class declares. -/
def outsideCall : Json := .obj [("invoke", .text "<app.B: void g()>")]

/-- Of two methods with different subsignatures both are kept. -/
theorem methods_are_kept_iff_distinct_of_overloads :
    let document := oneClass [methodEntry "void f()" [outsideCall], methodEntry "void f(int)" []]
    ∃ loaded log built, program {} document #[] = .ok loaded log ∧
      List.Forall₂ BuildsClass (classDocuments document) built ∧
      (built.flatten.map (·.signature)).Nodup ∧
      ∀ p ∈ built.flatten, loaded.procedure p.signature = .ok (p, loaded) := by
  intro document
  obtain ⟨loaded, log, read⟩ : ∃ loaded log, program {} document #[] = .ok loaded log :=
    ⟨_, _, by cbv⟩
  obtain ⟨built, builds, -, -, kept, -⟩ := methods_are_kept_iff_distinct read
  have distinct : DistinctMethods document := ⟨by decide, by decide⟩
  obtain ⟨signatures, found⟩ := kept.mpr distinct
  exact ⟨loaded, log, built, read, builds, signatures, found⟩

/-- A class that lists a subsignature twice is accepted, and the first of the two methods is lost. -/
theorem repeated_subsignature_loses_method :
    let document := oneClass [methodEntry "void f()" [outsideCall], methodEntry "void f()" []]
    ∃ loaded log first second, program {} document #[] = .ok loaded log ∧
      List.Forall₂ BuildsClass (classDocuments document) [[first, second]] ∧
      first.body.map List.length = some 1 ∧ second.body.map List.length = some 0 ∧
      loaded.procedure first.signature = .ok (second, loaded) := by
  intro document
  have builds (entry : Json) {m : Method}
      (reads : ∀ log, method (.text "app.A") entry log = .ok m log)
      (isKeyed : keyed (.text "app.A") m = .ok (.text "void f()", m)) :
      Builds (.text "app.A") entry (m.declare (.text "app.A") (.text "void f()")) :=
    ⟨_, _, rfl, ⟨m, fun log => ⟨log, reads log⟩, isKeyed⟩, rfl⟩
  have first := builds (methodEntry "void f()" [outsideCall]) (fun _ => rfl) rfl
  have second := builds (methodEntry "void f()" []) (fun _ => rfl) rfl
  exact ⟨_, _, _, _, by cbv, .cons (.cons first (.cons second .nil)) .nil, rfl, rfl, rfl⟩

end Description

end CallWeight
