import CallWeight.Proofs.ReorderedDocuments

/-! # Programs as they are put together

A program starts out empty. Classes may be added to it at any time, also after questions were asked, and
questions may be asked about any procedure, known or not. Whatever is put together in this way is tidy:
classes and procedures are found under their own names. If moreover no two methods share a signature,
then every method is what its signature names; otherwise the one that was filed last is.
-/

namespace CallWeight

/-! ## Methods of one class -/

namespace ClassDecl

def Made (c : ClassDecl) : Prop := ∃ shell methods, make shell methods = .ok c

theorem map_key_insertMethod (p : Procedure) (methods : List Procedure) :
    (insertMethod p methods).map (·.subsignature.key) =
      if p.subsignature.key ∈ methods.map (·.subsignature.key)
      then methods.map (·.subsignature.key)
      else methods.map (·.subsignature.key) ++ [p.subsignature.key] := by
  induction methods with
  | nil => simp [insertMethod]
  | cons q rest ih =>
      rw [insertMethod]
      by_cases same : q.subsignature.key = p.subsignature.key
      · simp [Atom.sameKey, same]
      · rw [if_neg (by simpa [Atom.sameKey] using same), List.map_cons, ih, List.map_cons]
        by_cases inRest : p.subsignature.key ∈ rest.map (·.subsignature.key)
        · rw [if_pos inRest, if_pos (List.mem_cons_of_mem _ inRest)]
        · rw [if_neg inRest, if_neg (by simp [Ne.symm same, inRest]), List.cons_append]

theorem Made.nodup_keys {c : ClassDecl} (made : c.Made) :
    (c.methods.map (·.subsignature.key)).Nodup := by
  obtain ⟨shell, methods, makes⟩ := made
  have kept (before after : ClassDecl) (distinct : (before.methods.map (·.subsignature.key)).Nodup)
      (added : methods.foldlM addMethod before = .ok after) :
      (after.methods.map (·.subsignature.key)).Nodup := by
    clear makes
    induction methods generalizing before with
    | nil =>
        cases added
        exact distinct
    | cons p rest ih =>
        obtain ⟨middle, first, others⟩ := ok_of_exceptBind added
        unfold addMethod at first
        split at first
        · cases first
          refine ih _ ?_ others
          simp only [map_key_insertMethod]
          split
          · exact distinct
          · rename_i isNew
            exact List.nodup_append_comm.mp (List.nodup_cons.mpr ⟨isNew, distinct⟩)
        · cases first
  exact kept _ c (by simp) makes

theorem Made.ownsMethods {c : ClassDecl} (made : c.Made) : c.OwnsMethods := by
  obtain ⟨shell, methods, makes⟩ := made
  exact ownsMethods_of_make makes

end ClassDecl

/-- The names by which a call site knows the procedure that holds it. -/
def Procedure.place (p : Procedure) : Atom × Atom := (p.declaringClass, p.subsignature)

/-! ## Programs -/

namespace Program

/-- Every program that can be put together, by additions and questions in any order. -/
inductive Assembled : Program → Prop
  | empty (config : Config) : Assembled { config }
  | addClass {before after : Program} {c : ClassDecl} (assembled : Assembled before) (made : c.Made)
      (added : before.addClass c = .ok after) : Assembled after
  | procedure {before after : Program} {signature : Text} {p : Procedure}
      (assembled : Assembled before) (found : before.procedure signature = .ok (p, after)) :
      Assembled after
  | depthMap {before : Program} (assembled : Assembled before) (p : Procedure) :
      Assembled (before.depthMap p).2

/-- Whether classes and procedures are found under their own names. -/
structure Tidy (program : Program) : Prop where
  made : ∀ c ∈ program.classes.values, c.Made
  found : ∀ c ∈ program.classes.values, program.class? c.name = some c
  names : (program.classes.values.map (·.name.key)).Nodup
  filed : ∀ {signature p}, program.procedures.get? signature = some p → p.signature = signature

theorem Tidy.empty (config : Config) : Tidy { config } where
  made := nofun
  found := nofun
  names := List.nodup_nil
  filed := nofun

theorem signature_of_fileAll {table : OrderedMap Text Procedure} {methods : List Procedure}
    (filed : ∀ {signature p}, table.get? signature = some p → p.signature = signature)
    {signature : Text} {p : Procedure} (found : (fileAll table methods).get? signature = some p) :
    p.signature = signature := by
  induction methods generalizing table with
  | nil => exact filed found
  | cons q rest ih =>
      have foundRest : (fileAll (table.insert q.signature q) rest).get? signature = some p := found
      refine ih (fun {other r} looked => ?_) foundRest
      rw [OrderedMap.get?_insert] at looked
      split at looked
      · rename_i same
        cases looked
        exact same
      · exact filed looked

theorem Tidy.addClass {before after : Program} {c : ClassDecl} (tidy : before.Tidy) (made : c.Made)
    (added : before.addClass c = .ok after) : after.Tidy := by
  obtain ⟨-, -, values, table⟩ := addClass_fields added
  obtain ⟨isNew, found⟩ := class?_of_addClass added
  constructor
  case made =>
    rw [values]
    exact List.forall_mem_append.mpr ⟨tidy.made, by simpa using made⟩
  case found =>
    rw [values]
    refine List.forall_mem_append.mpr ⟨fun d isClass => found.mpr (.inl (tidy.found d isClass)), ?_⟩
    simpa using found.mpr (.inr ⟨rfl, rfl⟩)
  case names =>
    rw [values, List.map_append, List.map_singleton]
    refine List.nodup_append_comm.mp (List.nodup_cons.mpr ⟨fun old => ?_, tidy.names⟩)
    obtain ⟨d, isClass, sameKey⟩ := List.mem_map.mp old
    have isThere := tidy.found d isClass
    simp only [class?, sameKey] at isThere isNew
    cases isNew.symm.trans isThere
  case filed =>
    rw [table]
    exact signature_of_fileAll tidy.filed

theorem Tidy.procedure {before after : Program} {signature : Text} {p : Procedure}
    (tidy : before.Tidy) (found : before.procedure signature = .ok (p, after)) : after.Tidy := by
  unfold Program.procedure at found
  split at found
  · cases found
    exact tidy
  · obtain ⟨q, made, found⟩ := ok_of_exceptBind found
    cases found
    refine { tidy with filed := fun {other r} looked => ?_ }
    simp only [OrderedMap.get?_insert] at looked
    split at looked
    · rename_i same
      cases looked
      exact (Procedure.phantom_spec made).1.trans same
    · exact tidy.filed looked

theorem tables_depthMap (program : Program) (p : Procedure) :
    (program.depthMap p).2.classes = program.classes ∧
      (program.depthMap p).2.procedures = program.procedures := by
  unfold depthMap
  split <;> exact ⟨rfl, rfl⟩

theorem Tidy.depthMap {before : Program} (tidy : before.Tidy) (p : Procedure) :
    (before.depthMap p).2.Tidy := by
  obtain ⟨classes, procedures⟩ := before.tables_depthMap p
  constructor
  case made => exact classes ▸ tidy.made
  case found =>
    simp only [class?, classes]
    exact tidy.found
  case names => exact classes ▸ tidy.names
  case filed => exact procedures ▸ tidy.filed

theorem Assembled.tidy {program : Program} (assembled : program.Assembled) : program.Tidy := by
  induction assembled with
  | empty config => exact .empty config
  | addClass _ made added ih => exact ih.addClass made added
  | procedure _ found ih => exact ih.procedure found
  | depthMap _ p ih => exact ih.depthMap p

theorem Assembled.addClasses {classes : List ClassDecl} {before after : Program}
    (assembled : before.Assembled) (made : ∀ c ∈ classes, c.Made)
    (added : classes.foldlM Program.addClass before = .ok after) : after.Assembled := by
  induction classes generalizing before with
  | nil =>
      cases added
      exact assembled
  | cons c rest ih =>
      obtain ⟨middle, first, others⟩ := ok_of_exceptBind added
      obtain ⟨isMade, madeRest⟩ := List.forall_mem_cons.mp made
      exact ih (assembled.addClass isMade first) madeRest others

/-! ## Distinct signatures -/

theorem knows_of_declared {program : Program} (assembled : program.Assembled)
    (distinct : ((program.classes.values.flatMap (·.methods)).map (·.signature)).Nodup)
    {p : Procedure} (declared : p ∈ program.classes.values.flatMap (·.methods)) :
    program.Knows p := by
  unfold Knows
  induction assembled with
  | empty config => cases declared
  | @addClass before after c _ _ added ih =>
      obtain ⟨-, -, values, table⟩ := addClass_fields added
      rw [values, List.flatMap_append, List.flatMap_singleton] at distinct declared
      rw [List.map_append] at distinct
      obtain ⟨early, late, apart⟩ := List.nodup_append.mp distinct
      rw [table]
      rcases List.mem_append.mp declared with old | isNew
      · have absent : p.signature ∉ c.methods.map (·.signature) := fun again =>
          apart _ (List.mem_map_of_mem old) _ again rfl
        rw [get?_fileAll_of_absent absent]
        exact ih early old
      · exact get?_fileAll_of_mem late isNew
  | @procedure before after signature q _ found ih =>
      unfold Program.procedure at found
      split at found
      · cases found
        exact ih distinct declared
      · rename_i isNew
        obtain ⟨q, made, found⟩ := ok_of_exceptBind found
        cases found
        have held := ih distinct declared
        have different : signature ≠ p.signature := by
          rintro rfl
          cases isNew.symm.trans held
        simp only [OrderedMap.get?_insert, if_neg different, held]
  | @depthMap before _ q ih =>
      obtain ⟨classes, procedures⟩ := before.tables_depthMap q
      rw [classes] at distinct declared
      rw [procedures]
      exact ih distinct declared

theorem Assembled.filed {program : Program} (assembled : program.Assembled)
    (distinct : ((program.classes.values.flatMap (·.methods)).map (·.signature)).Nodup) :
    program.Filed where
  own := assembled.tidy.filed
  declared c isClass _ isMethod :=
    knows_of_declared assembled distinct (List.mem_flatMap.mpr ⟨c, isClass, isMethod⟩)

/-- No two application procedures are in the same place, even if they share a signature. -/
theorem Tidy.nodup_places {program : Program} (tidy : program.Tidy) (named : program.Named) :
    (program.applicationProcedures.map Procedure.place).Nodup := by
  have declaring {c : ClassDecl} (isClass : c ∈ program.classes.values) {p : Procedure}
      (isMethod : p ∈ c.methods) : p.declaringClass = c.name := by
    obtain ⟨name, isName⟩ := named c isClass
    have owned := (tidy.made c isClass).ownsMethods p isMethod
    rw [isName] at owned ⊢
    exact Atom.eq_of_equals_text owned
  have apart : program.classes.values.Pairwise fun c d => c.name.key ≠ d.name.key :=
    List.pairwise_map.mp tidy.names
  rw [applicationProcedures, List.map_flatMap, List.nodup_flatMap]
  refine ⟨fun c listed => ?_, (apart.filter _).imp_of_mem fun {c d} isC isD different => ?_⟩
  · have keys := (tidy.made c (List.mem_filter.mp listed).1).nodup_keys
    refine List.Nodup.of_map (fun place => place.2.key) ?_
    rwa [List.map_map]
  · intro place inC inD
    obtain ⟨p, isP, rfl⟩ := List.mem_map.mp inC
    obtain ⟨q, isQ, same⟩ := List.mem_map.mp inD
    have sameClass : q.declaringClass = p.declaringClass := congrArg Prod.fst same
    rw [declaring (List.mem_filter.mp isC).1 isP, declaring (List.mem_filter.mp isD).1 isQ]
      at sameClass
    exact different (congrArg Atom.key sameClass.symm)

end Program

namespace Description

variable {config : Config} {document : Json} {log log' : Log} {loaded : Program}

theorem assembled_program (read : program config document log = .ok loaded log') :
    loaded.Assembled := by
  obtain ⟨built, sound⟩ := sound_program read
  refine Program.Assembled.addClasses (.empty config) (fun c isClass => ?_) built
  obtain ⟨shell, methods, made, -⟩ := sound c isClass
  exact ⟨shell, methods, made⟩

theorem named_program (read : program config document log = .ok loaded log') : loaded.Named := by
  obtain ⟨documents, declared, before, after, -, readClasses, built⟩ := classes_of_program read
  obtain ⟨-, -, values, -⟩ := Program.addClasses_fields built
  have values : loaded.classes.values = declared := values
  intro c isClass
  rw [values] at isClass
  obtain ⟨found, log, -, accepts⟩ := ok_of_bind readClasses
  obtain ⟨entry, -, _, _, accepted⟩ := mem_of_mapM accepts isClass
  obtain ⟨text, isText, -, declares⟩ := accept_eq_ok_iff.mp (ok_of_ofExcept accepted).2
  exact ⟨text, (ClassDecl.name_of_make declares).trans isText⟩

end Description

end CallWeight
