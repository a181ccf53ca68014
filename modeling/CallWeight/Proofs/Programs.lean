import CallWeight.Inspection
import CallWeight.Proofs.Computation
import CallWeight.Proofs.Signature

/-! # What the tables of a program hold

A program in which no two methods share a signature finds every method under its signature, and
everything else that its table holds is a phantom. Questions may add phantoms and remember loop
depths, but whatever the program knew before stays as it was.
-/

namespace CallWeight

namespace Program

/-- Whether the table holds a procedure under its signature. -/
def Knows (program : Program) (p : Procedure) : Prop :=
  program.procedures.get? p.signature = some p

/-- The programs in which no two methods share a signature: classes are made of methods and put into
    a program one by one, and then the program may be asked for procedures and for their loop
    depths. -/
inductive Built : Program → Prop
  | ofClasses {config : Config} {classes : List ClassDecl} {program : Program}
      (made : ∀ c ∈ classes, ∃ shell methods, ClassDecl.make shell methods = .ok c)
      (distinct : ((classes.flatMap (·.methods)).map (·.signature)).Nodup)
      (built : Program.ofClasses config classes = .ok program) : Built program
  | procedure {before after : Program} {signature : Text} {p : Procedure} (built : Built before)
      (found : before.procedure signature = .ok (p, after)) : Built after
  | depthMap {before : Program} {p : Procedure} (built : Built before) (known : before.Knows p) :
      Built (before.depthMap p).2

structure Coherent (program : Program) : Prop where
  filed : ∀ {signature p}, program.procedures.get? signature = some p → p.signature = signature
  declared : ∀ c ∈ program.classes.values, ∀ p ∈ c.methods,
    p.declaringClass.equals c.name ∧ program.Knows p
  /-- Whatever is not declared is a phantom. -/
  origin : ∀ {p}, program.Knows p → (∃ c ∈ program.classes.values, p ∈ c.methods) ∨
    p.body = none ∧ ∃ name, p.declaringClass = .text name
  cached : ∀ {signature depths}, program.depthCache.get? signature = some depths →
    ∃ p, program.Knows p ∧ p.signature = signature ∧ depths = p.depthMap

theorem Knows.eq {program : Program} {p q : Procedure} (pKnown : program.Knows p)
    (qKnown : program.Knows q) (same : p.signature = q.signature) : p = q := by
  unfold Knows at pKnown qKnown
  rw [same] at pKnown
  exact Option.some.inj (pKnown.symm.trans qKnown)

section Table

/-- The table after some methods were filed. -/
def fileAll (table : OrderedMap Text Procedure) (methods : List Procedure) :
    OrderedMap Text Procedure :=
  methods.foldl (fun table p => table.insert p.signature p) table

theorem get?_fileAll_of_absent {table : OrderedMap Text Procedure} {methods : List Procedure}
    {signature : Text} (absent : signature ∉ methods.map (·.signature)) :
    (fileAll table methods).get? signature = table.get? signature := by
  induction methods generalizing table with
  | nil => rfl
  | cons p rest ih =>
      simp only [List.map_cons, List.mem_cons, not_or] at absent
      simp only [fileAll, List.foldl_cons]
      refine (ih absent.2).trans ?_
      rw [OrderedMap.get?_insert, if_neg (Ne.symm absent.1)]

theorem get?_fileAll_of_mem {table : OrderedMap Text Procedure} {methods : List Procedure}
    (distinct : (methods.map (·.signature)).Nodup) {p : Procedure} (filed : p ∈ methods) :
    (fileAll table methods).get? p.signature = some p := by
  induction methods generalizing table with
  | nil => cases filed
  | cons q rest ih =>
      simp only [List.map_cons, List.nodup_cons] at distinct
      simp only [fileAll, List.foldl_cons]
      rcases List.mem_cons.mp filed with rfl | inRest
      · refine (get?_fileAll_of_absent distinct.1).trans ?_
        rw [OrderedMap.get?_insert, if_pos rfl]
      · exact ih distinct.2 inRest

theorem mem_of_get?_fileAll {methods : List Procedure} {signature : Text} {p : Procedure}
    (distinct : (methods.map (·.signature)).Nodup)
    (found : (fileAll .empty methods).get? signature = some p) :
    p ∈ methods ∧ p.signature = signature := by
  by_cases listed : signature ∈ methods.map (·.signature)
  · obtain ⟨q, filed, rfl⟩ := List.mem_map.mp listed
    obtain rfl : q = p := Option.some.inj ((get?_fileAll_of_mem distinct filed).symm.trans found)
    exact ⟨filed, rfl⟩
  · rw [get?_fileAll_of_absent listed] at found
    cases found

end Table

theorem addClass_fields {before after : Program} {c : ClassDecl}
    (added : before.addClass c = .ok after) :
    after.config = before.config ∧ after.depthCache = before.depthCache ∧
      after.classes.values = before.classes.values ++ [c] ∧
      after.procedures = fileAll before.procedures c.methods := by
  unfold addClass at added
  split at added
  · cases added
  · rename_i isNew
    cases added
    refine ⟨rfl, rfl, OrderedMap.values_insert_of_new ?_ c, rfl⟩
    simpa [OrderedMap.contains] using isNew

/-- What adding classes one by one makes of a program. -/
theorem addClasses_fields {classes : List ClassDecl} {before after : Program}
    (added : classes.foldlM addClass before = .ok after) :
    after.config = before.config ∧ after.depthCache = before.depthCache ∧
      after.classes.values = before.classes.values ++ classes ∧
      after.procedures = fileAll before.procedures (classes.flatMap (·.methods)) := by
  induction classes generalizing before with
  | nil =>
      cases added
      simp [fileAll]
  | cons c rest ih =>
      cases first : before.addClass c with
      | error fault => simp [List.foldlM_cons, first, bind, Except.bind] at added
      | ok middle =>
          simp only [List.foldlM_cons, first, bind, Except.bind] at added
          obtain ⟨config, cache, values, table⟩ := addClass_fields first
          obtain ⟨configRest, cacheRest, valuesRest, tableRest⟩ := ih added
          refine ⟨configRest.trans config, cacheRest.trans cache, ?_, ?_⟩
          · simp [valuesRest, values]
          · simp [tableRest, table, fileAll, List.foldl_append]

end Program

theorem Atom.eq_text_of_key {a : Atom} {name : Text} (sameKey : a.key = .text name) :
    a = .text name := by
  cases a with
  | text value => simpa [key] using sameKey
  | real bits =>
      unfold key at sameKey
      cases whole : Decimal.Binary64.toInt? bits <;> simp [whole] at sameKey
  | null | bool | int => simp [key] at sameKey

theorem Atom.eq_of_equals_text {a : Atom} {name : Text} (equal : a.equals (.text name)) :
    a = .text name := by
  simp only [equals, sameKey, Bool.and_eq_true, decide_eq_true_eq] at equal
  exact eq_text_of_key equal.2

namespace ClassDecl

theorem mem_insertMethod {p q : Procedure} {methods : List Procedure}
    (listed : q ∈ insertMethod p methods) : q = p ∨ q ∈ methods := by
  induction methods with
  | nil => simpa [insertMethod] using listed
  | cons first rest ih =>
      unfold insertMethod at listed
      split at listed
      · rcases List.mem_cons.mp listed with isNew | inRest
        · exact .inl isNew
        · exact .inr (List.mem_cons_of_mem _ inRest)
      · rcases List.mem_cons.mp listed with isFirst | inRest
        · exact .inr (isFirst ▸ List.mem_cons_self)
        · exact (ih inRest).imp_right (List.mem_cons_of_mem _)

/-- A class only holds methods that name it. -/
def OwnsMethods (c : ClassDecl) : Prop := ∀ p ∈ c.methods, p.declaringClass.equals c.name

theorem OwnsMethods.addMethod {before after : ClassDecl} {p : Procedure}
    (owns : before.OwnsMethods) (added : before.addMethod p = .ok after) : after.OwnsMethods := by
  unfold ClassDecl.addMethod at added
  split at added
  · rename_i named
    cases added
    intro q listed
    rcases mem_insertMethod listed with rfl | old
    · exact named
    · exact owns q old
  · cases added

theorem OwnsMethods.addMethods {before after : ClassDecl} {methods : List Procedure}
    (owns : before.OwnsMethods) (added : methods.foldlM ClassDecl.addMethod before = .ok after) :
    after.OwnsMethods := by
  induction methods generalizing before with
  | nil =>
      cases added
      exact owns
  | cons p rest ih =>
      cases first : before.addMethod p with
      | error fault => simp [List.foldlM_cons, first, bind, Except.bind] at added
      | ok middle =>
          simp only [List.foldlM_cons, first, bind, Except.bind] at added
          exact ih (owns.addMethod first) added

theorem ownsMethods_of_make {shell c : ClassDecl} {methods : List Procedure}
    (made : make shell methods = .ok c) : c.OwnsMethods :=
  OwnsMethods.addMethods (by simp [OwnsMethods]) made

end ClassDecl

namespace Program

theorem Coherent.ofClasses {config : Config} {classes : List ClassDecl} {program : Program}
    (made : ∀ c ∈ classes, ∃ shell methods, ClassDecl.make shell methods = .ok c)
    (distinct : ((classes.flatMap (·.methods)).map (·.signature)).Nodup)
    (built : Program.ofClasses config classes = .ok program) : program.Coherent := by
  obtain ⟨-, noDepths, values, table⟩ := addClasses_fields built
  have values : program.classes.values = classes := values
  constructor
  case filed =>
    intro signature p found
    rw [table] at found
    exact (mem_of_get?_fileAll distinct found).2
  case declared =>
    intro c isClass p isMethod
    rw [values] at isClass
    obtain ⟨shell, methods, makes⟩ := made c isClass
    refine ⟨ClassDecl.ownsMethods_of_make makes p isMethod, ?_⟩
    unfold Knows
    rw [table]
    exact get?_fileAll_of_mem distinct (List.mem_flatMap.mpr ⟨c, isClass, isMethod⟩)
  case origin =>
    intro p known
    unfold Knows at known
    rw [table] at known
    obtain ⟨c, isClass, isMethod⟩ := List.mem_flatMap.mp (mem_of_get?_fileAll distinct known).1
    exact .inl ⟨c, values ▸ isClass, isMethod⟩
  case cached =>
    intro signature depths found
    rw [noDepths] at found
    cases found

/-- What a program that was asked questions has in common with what it was before. -/
structure Later (before after : Program) : Prop where
  config : after.config = before.config
  classes : after.classes = before.classes
  knows : ∀ {p}, before.Knows p → after.Knows p
  coherent : before.Coherent → after.Coherent

theorem Later.refl (program : Program) : program.Later program := ⟨rfl, rfl, id, id⟩

theorem Later.trans {first second third : Program} (early : first.Later second)
    (late : second.Later third) : first.Later third where
  config := late.config.trans early.config
  classes := late.classes.trans early.classes
  knows := fun known => late.knows (early.knows known)
  coherent := fun coherent => late.coherent (early.coherent coherent)

theorem Later.applicationProcedures {before after : Program} (later : before.Later after) :
    after.applicationProcedures = before.applicationProcedures := by
  simp only [Program.applicationProcedures, applicationClasses, later.config, later.classes]

/-- A program may get to know another procedure under a new signature. -/
theorem Later.learn {program : Program} {p : Procedure}
    (isNew : program.procedures.get? p.signature = none) (noBody : p.body = none)
    (named : ∃ name, p.declaringClass = .text name) :
    program.Later
      { program with procedures := program.procedures.insert p.signature p } := by
  have knows : ∀ {q : Procedure}, program.Knows q →
      (program.procedures.insert p.signature p).get? q.signature = some q := by
    intro q known
    have different : p.signature ≠ q.signature := by
      intro same
      rw [same] at isNew
      exact Option.some_ne_none q (known.symm.trans isNew)
    rw [OrderedMap.get?_insert, if_neg different]
    exact known
  refine ⟨rfl, rfl, knows, fun coherent => ?_⟩
  constructor
  case filed =>
    intro signature q found
    simp only [OrderedMap.get?_insert] at found
    split at found
    · cases found
      assumption
    · exact coherent.filed found
  case declared =>
    intro c isClass q isMethod
    obtain ⟨owned, known⟩ := coherent.declared c isClass q isMethod
    exact ⟨owned, knows known⟩
  case origin =>
    intro q known
    simp only [Knows, OrderedMap.get?_insert] at known
    split at known
    · cases known
      exact .inr ⟨noBody, named⟩
    · exact coherent.origin known
  case cached =>
    intro signature depths found
    obtain ⟨q, known, about⟩ := coherent.cached found
    exact ⟨q, knows known, about⟩

/-- A program may remember the loop depths of a procedure that it knows. -/
theorem Later.remember {program : Program} {p : Procedure} (known : program.Knows p) :
    program.Later { program with depthCache := program.depthCache.insert p.signature p.depthMap } := by
  refine ⟨rfl, rfl, id, fun coherent => { coherent with cached := ?_ }⟩
  intro signature depths found
  simp only [OrderedMap.get?_insert] at found
  split at found
  · cases found
    exact ⟨p, known, by assumption, rfl⟩
  · exact coherent.cached found

/-- Whether the table holds all procedures under their signatures, and all declared methods. -/
structure Filed (program : Program) : Prop where
  own : ∀ {signature p}, program.procedures.get? signature = some p → p.signature = signature
  declared : ∀ c ∈ program.classes.values, ∀ p ∈ c.methods, program.Knows p

theorem Coherent.isFiled {program : Program} (coherent : program.Coherent) : program.Filed where
  own := coherent.filed
  declared c isClass p isMethod := (coherent.declared c isClass p isMethod).2

theorem procedure_spec {before after : Program} {signature : Text} {p : Procedure}
    (found : before.procedure signature = .ok (p, after)) :
    before.Later after ∧ (before.Filed → after.Knows p) := by
  unfold procedure at found
  split at found
  · rename_i q held
    cases found
    refine ⟨.refl _, fun filed => ?_⟩
    unfold Knows
    rw [filed.own held]
    exact held
  · rename_i isNew
    cases made : Procedure.phantom signature with
    | error fault => simp [made, bind, Except.bind] at found
    | ok q =>
        simp only [made, bind, Except.bind, pure, Except.pure, Except.ok.injEq,
          Prod.mk.injEq] at found
        obtain ⟨rfl, rfl⟩ := found
        obtain ⟨rfl, noBody, named⟩ := Procedure.phantom_spec made
        refine ⟨.learn isNew noBody named, fun _ => ?_⟩
        simp [Knows, OrderedMap.get?_insert]

theorem depthMap_later {program : Program} {p : Procedure} (known : program.Knows p) :
    program.Later (program.depthMap p).2 := by
  unfold depthMap
  split
  · exact .refl _
  · exact .remember known

theorem depthMap_eq {program : Program} (coherent : program.Coherent) {p : Procedure}
    (known : program.Knows p) : (program.depthMap p).1 = p.depthMap := by
  unfold depthMap
  split
  · rename_i depths found
    obtain ⟨q, qKnown, same, rfl⟩ := coherent.cached found
    rw [qKnown.eq known same]
  · rfl

theorem nodup_applicationProcedures {program : Program}
    (distinct : ((program.classes.values.flatMap (·.methods)).map (·.signature)).Nodup) :
    (program.applicationProcedures.map (·.signature)).Nodup := by
  refine List.Nodup.sublist (List.Sublist.map _ ?_) distinct
  exact List.filter_sublist.flatMap _

/-- Whether every class is called by a text. -/
def Named (program : Program) : Prop := ∀ c ∈ program.classes.values, ∃ name, c.name = .text name

theorem Later.named {before after : Program} (later : before.Later after) (named : before.Named) :
    after.Named := by
  unfold Named
  rw [later.classes]
  exact named

theorem named_of_requireNames {program : Program} (checked : program.requireNames = .ok ()) :
    program.Named := by
  unfold requireNames at checked
  unfold Named
  generalize program.classes.values = classes at checked
  induction classes with
  | nil => simp
  | cons c rest ih =>
      obtain ⟨name, superclass, interfaces, interfaceMark, methods⟩ := c
      cases name with
      | text name =>
          have inRest := ih checked
          simpa using inRest
      | null | bool | int | real => cases checked

section Application

variable {program : Program} (coherent : program.Coherent) (named : program.Named) {p : Procedure}

include coherent named

theorem Coherent.exists_className (known : program.Knows p) :
    ∃ name, p.declaringClass = .text name := by
  rcases coherent.origin known with ⟨c, isClass, isMethod⟩ | ⟨-, isNamed⟩
  · obtain ⟨name, isName⟩ := named c isClass
    have owned := (coherent.declared c isClass p isMethod).1
    rw [isName] at owned
    exact ⟨name, Atom.eq_of_equals_text owned⟩
  · exact isNamed

theorem Coherent.isApplication_eq (known : program.Knows p) :
    program.isApplication p = .ok (program.config.isApplicationClass p.declaringClass) := by
  obtain ⟨name, isName⟩ := coherent.exists_className named known
  simp only [isApplication, Procedure.className, isName]
  rfl

theorem Coherent.knows_of_application (listed : p ∈ program.applicationProcedures) :
    program.Knows p ∧ program.config.isApplicationClass p.declaringClass = true := by
  obtain ⟨c, isApplication, isMethod⟩ := List.mem_flatMap.mp listed
  obtain ⟨isClass, accepted⟩ := List.mem_filter.mp isApplication
  obtain ⟨owned, known⟩ := coherent.declared c isClass p isMethod
  obtain ⟨name, isName⟩ := named c isClass
  rw [isName] at owned accepted
  exact ⟨known, Atom.eq_of_equals_text owned ▸ accepted⟩

/-- Application code with a body is declared by an application class. -/
theorem Coherent.mem_applicationProcedures (known : program.Knows p)
    (accepted : program.config.isApplicationClass p.declaringClass = true)
    (hasBody : p.body.isSome) : p ∈ program.applicationProcedures := by
  rcases coherent.origin known with ⟨c, isClass, isMethod⟩ | ⟨noBody, -⟩
  · obtain ⟨name, isName⟩ := named c isClass
    have owned := (coherent.declared c isClass p isMethod).1
    rw [isName] at owned
    rw [Atom.eq_of_equals_text owned, ← isName] at accepted
    exact List.mem_flatMap.mpr ⟨c, List.mem_filter.mpr ⟨isClass, accepted⟩, isMethod⟩
  · simp [noBody] at hasBody

end Application

section Entry

variable {program : Program} (filed : program.Filed) {p : Procedure}

include filed

theorem Filed.knows_of_method? {c : ClassDecl} {subsignature : Atom}
    (isClass : c ∈ program.classes.values) (found : c.method? subsignature = some p) :
    program.Knows p :=
  filed.declared c isClass p (List.mem_of_find?_eq_some found)

theorem Filed.knows_of_entryAbove {subsignature : Atom} {above : Ancestry}
    (found : program.entryAbove subsignature above = .ok (.found p)) : program.Knows p := by
  induction above with
  | done | broken => cases found
  | link name rest ih =>
      unfold entryAbove at found
      split at found
      · rename_i c isClass
        split at found
        · rename_i q isMethod
          cases found
          exact filed.knows_of_method? (OrderedMap.mem_values_of_get? isClass) isMethod
        · exact ih found
      · split at found <;> cases found

/-- The method that runs when a declared class is started is known. -/
theorem Filed.knows_of_entrySearch {c : ClassDecl} (isClass : c ∈ program.classes.values)
    (found : program.entrySearch c = .ok (.found p)) : program.Knows p := by
  unfold entrySearch at found
  cases keyed : program.config.entrySubsignature.asKey with
  | error fault => simp [keyed, bind, Except.bind] at found
  | ok subsignature =>
      simp only [keyed, bind, Except.bind] at found
      split at found
      · rename_i q isMethod
        cases found
        exact filed.knows_of_method? isClass isMethod
      · exact filed.knows_of_entryAbove found

end Entry

theorem Built.coherent {program : Program} (built : program.Built) : program.Coherent := by
  induction built with
  | ofClasses made distinct built => exact .ofClasses made distinct built
  | procedure _ found ih => exact (procedure_spec found).1.coherent ih
  | depthMap _ known ih => exact (depthMap_later known).coherent ih

end Program

end CallWeight
