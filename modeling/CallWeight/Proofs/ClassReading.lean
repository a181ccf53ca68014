import CallWeight.Proofs.Lists
import CallWeight.Proofs.LoadedPrograms

/-! # Reading class by class

What is read for a class or a method depends on its own description only: not on the log that is
written meanwhile, and not on what was read before, except that no two classes may have one name. So
a list of classes is read successfully if each of them is and their names differ, and what is read is
known class by class.
-/

namespace CallWeight

namespace ClassDecl

theorem name_of_make {shell c : ClassDecl} {methods : List Procedure}
    (made : make shell methods = .ok c) : c.name = shell.name := by
  have kept (before after : ClassDecl) (added : methods.foldlM addMethod before = .ok after) :
      after.name = before.name := by
    clear made
    induction methods generalizing before with
    | nil =>
        cases added
        rfl
    | cons p rest ih =>
        obtain ⟨middle, first, others⟩ := ok_of_exceptBind added
        rw [ih middle others]
        unfold addMethod at first
        split at first
        · cases first
          rfl
        · cases first
  have same := kept _ c made
  exact same

end ClassDecl

namespace Description

/-! ## Reading does not depend on the log -/

section Gives

variable {α β : Type} {x : Reading α} {f : α → Reading β} {a : α} {b : β}

/-- Whether a reading returns a value, whatever the log holds. -/
def Gives (x : Reading α) (a : α) : Prop := ∀ log, ∃ log', x log = .ok a log'

/-- Whether a reading returns the same for every log. -/
def Oblivious (x : Reading α) : Prop := ∀ log log' a, x log = .ok a log' → Gives x a

theorem Gives.bind (first : Gives x a) (second : Gives (f a) b) : Gives (x >>= f) b := by
  intro log
  obtain ⟨log, returned⟩ := first log
  obtain ⟨log', returnedSecond⟩ := second log
  exact ⟨log', (bind_of_ok returned).trans returnedSecond⟩

theorem gives_pure (a : α) : Gives (pure a) a := fun log => ⟨log, rfl⟩

theorem gives_ofExcept {result : Except Fault α} (isResult : result = .ok a) :
    Gives (ofExcept result) a := by
  subst isResult
  exact fun log => ⟨log, rfl⟩

theorem ok_of_gives {result : Except Fault α} (gives : Gives (ofExcept result) a) :
    result = .ok a := by
  obtain ⟨log, returned⟩ := gives #[]
  exact (ok_of_ofExcept returned).2

theorem oblivious_pure (a : α) : Oblivious (pure a : Reading α) := by
  intro log log' b returned
  cases returned
  exact gives_pure a

theorem oblivious_ofExcept (result : Except Fault α) : Oblivious (ofExcept result : Reading α) :=
  fun _ _ _ returned => gives_ofExcept (ok_of_ofExcept returned).2

theorem oblivious_throw (fault : Fault) : Oblivious (throw fault : Reading α) := nofun

theorem oblivious_modify (change : Log → Log) : Oblivious (modify change : Reading Unit) :=
  fun _ _ _ _ log => ⟨change log, rfl⟩

theorem Oblivious.bind (first : Oblivious x) (second : ∀ a, Oblivious (f a)) :
    Oblivious (x >>= f) := by
  intro log log' b returned
  obtain ⟨a, log, returnedFirst, returnedSecond⟩ := ok_of_bind returned
  exact (first _ _ _ returnedFirst).bind (second a _ _ _ returnedSecond)

theorem forall₂_of_mapM (oblivious : ∀ a, Oblivious (f a)) {items : List α} {results : List β}
    {log log' : Log} (returned : items.mapM f log = .ok results log') :
    List.Forall₂ (fun a b => Gives (f a) b) items results := by
  induction items generalizing results log with
  | nil =>
      cases returned
      exact .nil
  | cons a rest ih =>
      rw [List.mapM_cons] at returned
      obtain ⟨first, log, found, returned⟩ := ok_of_bind returned
      obtain ⟨others, log, foundRest, returned⟩ := ok_of_bind returned
      cases returned
      exact .cons (oblivious a _ _ _ found) (ih foundRest)

theorem gives_mapM {items : List α} {results : List β}
    (related : List.Forall₂ (fun a b => Gives (f a) b) items results) :
    Gives (items.mapM f) results := by
  induction related with
  | nil => exact gives_pure _
  | cons first _ ih =>
      rw [List.mapM_cons]
      exact first.bind (ih.bind (gives_pure _))

end Gives

theorem oblivious_loops (site : Text) (length : Nat) (document : Json) :
    Oblivious (loops site length document) := by
  unfold loops
  split
  · exact oblivious_throw _
  · refine (oblivious_ofExcept _).bind fun flow => ?_
    unfold recoverLoops
    dsimp only
    split
    · exact (oblivious_modify _).bind fun _ => oblivious_pure _
    · exact oblivious_pure _
  · exact oblivious_throw _
  · exact oblivious_ofExcept _
  · exact oblivious_pure _

theorem oblivious_method (className document : Json) : Oblivious (method className document) := by
  unfold method
  split
  · exact oblivious_throw _
  · dsimp only
    split
    · exact oblivious_pure _
    · exact oblivious_pure _
    · refine (oblivious_ofExcept _).bind fun body => ?_
      exact (oblivious_loops _ _ _).bind fun _ => oblivious_pure _

/-! ## What is read for a method, and for a class -/

def nameOf (document : Json) : Json := (document.field? "name").getD .null

/-- The descriptions of the methods of a class. -/
def methodDocuments (document : Json) : List Json :=
  match itemsOf "methods" document with
  | .ok items => items
  | .error _ => []

/-- The key under which a class files a method. -/
def methodKey? (document : Json) : Option Atom :=
  match document.field? "subsignature" with
  | some (.atom subsignature) => some subsignature.key
  | _ => none

/-- The signature of a method that a class with the given name lists. -/
def signatureOf (className document : Json) : Text :=
  Signature.make className.display ((document.field? "subsignature").getD .null).display

def classSignatures (document : Json) : List Text :=
  (methodDocuments document).map (signatureOf (nameOf document))

/-- What a class holds for the description of one of its methods. -/
def ReadsMethod (className : Json) : Json → Atom × Method → Prop :=
  Relation.Comp (fun document m => Gives (method className document) m)
    fun m entry => keyed className m = .ok entry

theorem ReadsMethod.names {className document : Json} {entry : Atom × Method}
    (reads : ReadsMethod className document entry) :
    entry.2.declaringClass = className ∧
      document.field? "subsignature" = some (.atom entry.1) := by
  obtain ⟨m, gives, isKeyed⟩ := reads
  obtain ⟨log, returned⟩ := gives #[]
  obtain ⟨isDeclared, given, -⟩ := sound_method returned
  unfold keyed at isKeyed
  split at isKeyed
  · cases isKeyed
  · obtain ⟨key, isKey, isKeyed⟩ := ok_of_exceptBind isKeyed
    cases isKeyed
    refine ⟨isDeclared, given.trans ?_⟩
    unfold Json.asKey at isKey
    split at isKey
    · rename_i isAtom
      cases isKey
      rw [isAtom]
    · cases isKey

/-- What is read for a class. -/
structure ReadsClass (document : Json) (c : Class) : Prop where
  named : (nameOf document).truthy
  name : c.name = nameOf document
  superclass : c.superclass = (document.field? "superclass").getD (.text "java.lang.Object")
  interfaces : itemsOf "interfaces" document = .ok c.interfaces
  interfaceMark : c.interfaceMark = .bool (document.hasTruthy "interface")
  methods : ∃ documents, itemsOf "methods" document = .ok documents ∧
    List.Forall₂ (ReadsMethod (nameOf document)) documents c.methods

theorem readsClass_of_classOf {document : Json} {log log' : Log} {c : Class}
    (read : classOf document log = .ok c log') : ReadsClass document c := by
  unfold classOf at read
  dsimp only at read
  split at read
  · obtain ⟨done, log, thrown, read⟩ := ok_of_bind read
    cases thrown
  · rename_i named
    obtain ⟨documents, log, items, read⟩ := ok_of_bind read
    obtain ⟨methods, log, readMethods, read⟩ := ok_of_bind read
    obtain ⟨interfaces, log, readInterfaces, read⟩ := ok_of_bind read
    obtain ⟨entries, log, keys, read⟩ := ok_of_bind read
    cases read
    refine ⟨by simpa [nameOf] using named, rfl, rfl, (ok_of_ofExcept readInterfaces).2, rfl,
      documents, (ok_of_ofExcept items).2, ?_⟩
    have given := forall₂_of_mapM (oblivious_method _) readMethods
    have filed := forall₂_of_mapM (fun _ => oblivious_ofExcept _) keys
    exact forall₂_comp.mpr ⟨methods, given, filed.imp fun _ _ => ok_of_gives⟩

theorem ReadsClass.gives {document : Json} {c : Class} (reads : ReadsClass document c) :
    Gives (classOf document) c := by
  obtain ⟨name, superclass, interfaces, interfaceMark, entries⟩ := c
  obtain ⟨isNamed, rfl, rfl, readInterfaces, rfl, documents, items, related⟩ := reads
  obtain ⟨methods, readMethods, filed⟩ := forall₂_comp.mp related
  have keys := gives_mapM (filed.imp fun _ _ => gives_ofExcept)
  have named : ¬ (!((document.field? "name").getD .null).truthy) = true := by
    simpa [nameOf] using isNamed
  unfold classOf
  dsimp only
  rw [if_neg named]
  refine (gives_ofExcept items).bind ((gives_mapM readMethods).bind ?_)
  exact (gives_ofExcept readInterfaces).bind (keys.bind (gives_pure _))

section Methods

variable {className : Json} {documents : List Json} {entries : List (Atom × Method)}

theorem map_methodKey? (related : List.Forall₂ (ReadsMethod className) documents entries) :
    documents.map methodKey? = entries.map fun entry => some entry.1.key := by
  induction related with
  | nil => rfl
  | cons first _ ih =>
      have here := first.names.2
      rw [List.map_cons, List.map_cons, ih, methodKey?, here]

theorem map_signatureOf {name : Atom}
    (related : List.Forall₂ (ReadsMethod (.atom name)) documents entries) :
    documents.map (signatureOf (.atom name)) =
      entries.map fun entry => (entry.2.declare name entry.1).signature := by
  induction related with
  | nil => rfl
  | cons first _ ih =>
      obtain ⟨isDeclared, given⟩ := first.names
      rw [List.map_cons, List.map_cons, ih, signatureOf, given, Procedure.signature, Method.declare,
        isDeclared]
      rfl

end Methods

/-! ## The classes of a description -/

/-- What is filed for the description of a class. -/
def Files (document : Json) (entry : Atom × Class) : Prop :=
  ReadsClass document entry.2 ∧ entry.2.name = .atom entry.1

/-- The class that a document describes, once it is declared. -/
def Declares (check : Text → Except Fault Unit) : Json → ClassDecl → Prop :=
  Relation.Comp Files fun entry declared => Class.accept check entry = .ok declared

/-- The methods of a class, declared under its name. -/
def Class.procedures (c : Class) (name : Atom) : List Procedure :=
  c.methods.map fun entry => entry.2.declare name entry.1

theorem accept_eq_ok_iff {check : Text → Except Fault Unit} {name : Atom} {c : Class}
    {declared : ClassDecl} :
    Class.accept check (name, c) = .ok declared ↔
      ∃ text, name = .text text ∧ check text = .ok () ∧ c.declare name = .ok declared := by
  constructor
  · intro accepted
    obtain ⟨text, isText, accepted⟩ := ok_of_exceptBind accepted
    obtain ⟨done, passes, declares⟩ := ok_of_exceptBind accepted
    exact ⟨text, Json.atom.inj (Json.eq_text_of_asText isText), passes, declares⟩
  · rintro ⟨text, rfl, passes, declares⟩
    change (check text >>= fun _ => c.declare (.text text)) = .ok declared
    rw [passes]
    exact declares

theorem addClass_eq_ok_iff {found next : List (Atom × Class)} {c : Class} :
    addClass found c = .ok next ↔ ∃ name, c.name = .atom name ∧
      name.key ∉ found.map (·.1.key) ∧ next = found ++ [(name, c)] := by
  have known (name : Atom) : (found.any fun entry => entry.1.sameKey name) = true ↔
      name.key ∈ found.map (·.1.key) := by
    simp [Atom.sameKey]
  unfold addClass
  constructor
  · intro added
    obtain ⟨name, isKey, added⟩ := ok_of_exceptBind added
    unfold Json.asKey at isKey
    split at isKey
    · rename_i isAtom
      cases isKey
      dsimp only at added
      split at added
      · cases added
      · rename_i isNew
        cases added
        exact ⟨name, isAtom, fun old => isNew ((known name).mpr old), rfl⟩
    · cases isKey
  · rintro ⟨name, isAtom, isNew, rfl⟩
    rw [isAtom]
    exact if_neg fun old => isNew ((known name).mp old)

/-- Read a class and file it. -/
def fileClass (found : List (Atom × Class)) (document : Json) :
    Reading (List (Atom × Class)) := do
  let c ← classOf document
  ofExcept (addClass found c)

section Classes

variable {check : Text → Except Fault Unit} {documents : List Json} {declared : List ClassDecl}

theorem files_of_foldlM {found final : List (Atom × Class)} {log log' : Log}
    (read : documents.foldlM fileClass found log = .ok final log')
    (distinct : (found.map (·.1.key)).Nodup) :
    (final.map (·.1.key)).Nodup ∧
      ∃ entries, final = found ++ entries ∧ List.Forall₂ Files documents entries := by
  induction documents generalizing found log with
  | nil =>
      cases read
      exact ⟨distinct, [], (List.append_nil _).symm, .nil⟩
  | cons document rest ih =>
      obtain ⟨next, between, first, others⟩ := ok_of_bind read
      obtain ⟨c, between, readClass, added⟩ := ok_of_bind first
      obtain ⟨name, named, isNew, rfl⟩ := addClass_eq_ok_iff.mp (ok_of_ofExcept added).2
      have distinctNow : ((found ++ [(name, c)]).map (·.1.key)).Nodup := by
        rw [List.map_append, List.map_singleton]
        exact List.nodup_append_comm.mp (List.nodup_cons.mpr ⟨isNew, distinct⟩)
      obtain ⟨distinctAll, entries, rfl, related⟩ := ih others distinctNow
      refine ⟨distinctAll, (name, c) :: entries, ?_, .cons ⟨?_, named⟩ related⟩
      · rw [List.append_assoc, List.singleton_append]
      · exact readsClass_of_classOf readClass

theorem gives_foldlM (found : List (Atom × Class)) {entries : List (Atom × Class)}
    (related : List.Forall₂ Files documents entries)
    (distinct : ((found ++ entries).map (·.1.key)).Nodup) :
    Gives (documents.foldlM fileClass found) (found ++ entries) := by
  induction related generalizing found with
  | nil =>
      rw [List.append_nil]
      exact gives_pure found
  | @cons document entry _ entries first _ ih =>
      obtain ⟨reads, named⟩ := first
      -- Only the names of the classes before it can stand in the way of a class.
      have isNew : entry.1.key ∉ found.map (·.1.key) := by
        rw [List.map_append, List.map_cons] at distinct
        exact fun old => List.disjoint_of_nodup_append distinct old List.mem_cons_self
      have added := addClass_eq_ok_iff.mpr ⟨entry.1, named, isNew, rfl⟩
      have split : found ++ entry :: entries = (found ++ [entry]) ++ entries := by simp
      rw [split] at distinct ⊢
      rw [List.foldlM_cons]
      exact (reads.gives.bind (gives_ofExcept added)).bind (ih _ distinct)

theorem map_name_of_accept {entries : List (Atom × Class)}
    (related : List.Forall₂ (fun entry c => Class.accept check entry = .ok c) entries declared) :
    declared.map (·.name.key) = entries.map (·.1.key) := by
  induction related with
  | nil => rfl
  | cons first _ ih =>
      obtain ⟨text, -, -, made⟩ := accept_eq_ok_iff.mp first
      rw [List.map_cons, List.map_cons, ih, ClassDecl.name_of_make made]

theorem declares_of_classes {log log' : Log}
    (read : classes check documents log = .ok declared log') :
    List.Forall₂ (Declares check) documents declared := by
  obtain ⟨found, between, reads, accepts⟩ := ok_of_bind read
  obtain ⟨-, _, rfl, related⟩ := files_of_foldlM reads List.nodup_nil
  have accepted := forall₂_of_mapM (fun _ => oblivious_ofExcept _) accepts
  exact forall₂_comp.mpr ⟨found, related, accepted.imp fun _ _ => ok_of_gives⟩

theorem gives_classes (related : List.Forall₂ (Declares check) documents declared)
    (distinct : (declared.map (·.name.key)).Nodup) : Gives (classes check documents) declared := by
  obtain ⟨entries, files, accepted⟩ := forall₂_comp.mp related
  rw [map_name_of_accept accepted] at distinct
  exact (gives_foldlM [] files distinct).bind (gives_mapM (accepted.imp fun _ _ => gives_ofExcept))

end Classes

theorem gives_program {config : Config} {document : Json} {documents : List Json}
    {declared : List ClassDecl} {loaded : Program}
    (listed : document.field? "classes" = some (.arr documents))
    (gives : Gives (classes (fun _ => .ok ()) documents) declared)
    (built : Program.ofClasses config declared = .ok loaded) :
    Gives (program config document) loaded := by
  have reads : program config document = programOf config (fun _ => .ok ()) documents := by
    cases document with
    | atom value | arr items => cases listed
    | obj fields => simp only [program, checkedProgram, listed]
  rw [reads]
  refine gives.bind ((gives_ofExcept built).bind ?_)
  exact Gives.bind (fun log => ⟨_, rfl⟩) (gives_pure _)

end Description

end CallWeight
