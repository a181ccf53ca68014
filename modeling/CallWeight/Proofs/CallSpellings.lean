import CallWeight.Proofs.LoadedPrograms
import CallWeight.Proofs.ViewedAnalysis

/-! # Three spellings of one call

A call can be described as a statement of its own, as an assignment that invokes a method, and as an
assignment whose right-hand side does so. Whatever is asked about a statement is answered alike for all
three, so nothing changes for an analysis if a view spells every call out. Two descriptions that
differ only in how they spell calls are therefore read alike, and analysed alike.
-/

namespace CallWeight

namespace Statement

/-- The statement with its call written as a plain invocation. -/
def spelledOut (s : Statement) : Statement where
  kind := if s.isCall then .invoke else .plain
  method := s.invokedMethod
  argTypes := if s.argTypes.isEmpty then (s.rhs.map (·.argTypes)).getD [] else s.argTypes
  targets := s.targets.or (s.rhs.bind (·.targets))
  index := s.index

variable (s : Statement)

theorem invokedMethod_spelledOut : s.spelledOut.invokedMethod = s.invokedMethod := by
  unfold spelledOut isCall
  cases called : s.invokedMethod <;> rfl

theorem firstArgType_spelledOut : s.spelledOut.firstArgType = s.firstArgType := by
  have kept (args : List Json) : (if args.isEmpty then [] else args) = args := by
    cases args <;> rfl
  unfold firstArgType spelledOut
  simp only [Option.map_none, Option.getD_none, kept]

/-- An assignment that names its call itself is spelled out as the call. -/
theorem spelledOut_mk {call : Operation} (isCall : call.kind ≠ .plain) (named : call.method.isSome)
    (index : Json) : spelledOut { toOperation := call, index } =
      { toOperation := { call with kind := .invoke }, index } := by
  obtain ⟨kind, method, argTypes, targets⟩ := call
  obtain ⟨signature, rfl⟩ := Option.isSome_iff_exists.mp named
  cases kind with
  | plain => exact absurd rfl isCall
  | invoke | assign => cases argTypes <;> cases targets <;> rfl

theorem declaredTargets_spelledOut : s.spelledOut.declaredTargets = s.declaredTargets := by
  unfold declaredTargets
  rw [invokedMethod_spelledOut]
  unfold spelledOut
  cases s.targets with
  | some targets => rfl
  | none => cases s.rhs.bind (·.targets) <;> rfl

end Statement

/-- All calls as plain invocations. -/
def View.spelling (config : Config) : View config where
  procedure p := { p with body := p.body.map (List.map Statement.spelledOut) }
  statement := Statement.spelledOut
  declaringClass _ := rfl
  subsignature _ := rfl
  bare _ _ := rfl
  body _ := rfl
  loops _ := rfl
  index _ := rfl
  invokedMethod := Statement.invokedMethod_spelledOut
  firstArgType := Statement.firstArgType_spelledOut
  declaredTargets := Statement.declaredTargets_spelledOut

/-! ## Computations that run alike -/

/-- Whether two computations end alike from every state, which they change in the same way. -/
def RunAlike {ε σ α β : Type} (related : α → β → Prop) (x : EStateM ε σ α) (y : EStateM ε σ β) : Prop :=
  ∀ s, EndAlike related Eq (x s) (y s)

namespace RunAlike

variable {ε σ α β γ δ : Type} {R : α → β → Prop} {S : γ → δ → Prop} {x : EStateM ε σ α}
  {y : EStateM ε σ β}

theorem bind {k : α → EStateM ε σ γ} {l : β → EStateM ε σ δ} (first : RunAlike R x y)
    (second : ∀ a b, R a b → RunAlike S (k a) (l b)) : RunAlike S (x >>= k) (y >>= l) := by
  intro s
  have alike := first s
  cases result : x s with
  | ok a t =>
      rw [result] at alike
      obtain ⟨b, _, resultOther, same, rfl⟩ := alike.exists_ok
      rw [bind_of_ok result, bind_of_ok resultOther]
      exact second a b same t
  | error e t =>
      rw [result] at alike
      obtain ⟨_, resultOther, rfl⟩ := alike.exists_error
      rw [bind_of_error result, bind_of_error resultOther]
      exact .error rfl

theorem pure {a : α} {b : β} (same : R a b) :
    RunAlike R (pure a : EStateM ε σ α) (pure b : EStateM ε σ β) := fun _ => .ok same rfl

theorem throw (e : ε) : RunAlike R (throw e : EStateM ε σ α) (throw e : EStateM ε σ β) :=
  fun _ => .error rfl

theorem refl (x : EStateM ε σ α) : RunAlike Eq x x := by
  intro s
  cases x s with
  | ok a t => exact .ok rfl rfl
  | error e t => exact .error rfl

theorem ofExcept {f : α → γ} {x y : Except ε α} (same : x.map f = y.map f) :
    RunAlike (fun a b => f a = f b) (ofExcept x : EStateM ε σ α) (ofExcept y : EStateM ε σ α) := by
  cases x with
  | ok a =>
      cases y with
      | ok b => exact pure (Except.ok.inj same)
      | error e => cases same
  | error e =>
      cases y with
      | ok b => cases same
      | error e' =>
          cases same
          exact throw e

theorem mapM {items : List α} {others : List β} (related : List.Forall₂ R items others)
    {f : α → EStateM ε σ γ} {g : β → EStateM ε σ δ}
    (step : ∀ a b, R a b → RunAlike S (f a) (g b)) :
    RunAlike (List.Forall₂ S) (items.mapM f) (others.mapM g) := by
  induction related with
  | nil => exact pure .nil
  | cons first _ ih =>
      rw [List.mapM_cons, List.mapM_cons]
      exact (step _ _ first).bind fun _ _ here => ih.bind fun _ _ rest => pure (.cons here rest)

theorem foldlM {items : List α} {others : List β} (related : List.Forall₂ R items others)
    {f : γ → α → EStateM ε σ γ} {g : δ → β → EStateM ε σ δ}
    (step : ∀ a b, R a b → ∀ c d, S c d → RunAlike S (f c a) (g d b)) {c : γ} {d : δ} (start : S c d) :
    RunAlike S (items.foldlM f c) (others.foldlM g d) := by
  induction related generalizing c d with
  | nil => exact pure start
  | cons first _ ih =>
      rw [List.foldlM_cons, List.foldlM_cons]
      exact (step _ _ first _ _ start).bind fun _ _ next => ih next

end RunAlike

/-! ## Respelled descriptions -/

namespace Description

/-- Whether a statement invokes something. -/
def Invokes (s : Json) : Prop := ∃ signature, s.field? "invoke" = some signature ∧ signature ≠ .null

/-- Whether two statements describe the same call, whatever they say about assigning its value. -/
structure SameCall (s t : Json) : Prop where
  invokes : Invokes s
  invoke : t.field? "invoke" = s.field? "invoke"
  args : t.field? "args" = s.field? "args"
  targets : t.field? "targets" = s.field? "targets"

/-- The ways to spell a call. -/
inductive CallForm where
  | plain
  | assigned
  | nested

/-- A call with the given fields, in one of its spellings. -/
def CallForm.spell (form : CallForm) (call : List (Text × Json)) : Json :=
  match form with
  | .plain => .obj call
  | .assigned => .obj (("assign", .bool true) :: call)
  | .nested => .obj (("assign", .bool true) :: ("nested", .bool true) :: call)

theorem CallForm.field?_spell (form : CallForm) (call : List (Text × Json)) {key : Text}
    (isAssign : key ≠ Text.ofString "assign") (isNested : key ≠ Text.ofString "nested") :
    (form.spell call).field? key = (Json.obj call).field? key := by
  have other {mark : Text} (isOther : key ≠ mark) : (key == mark) = false := beq_false_of_ne isOther
  cases form <;> simp [spell, Json.field?, List.lookup, other isAssign, other isNested]

theorem CallForm.sameCall (first second : CallForm) {call : List (Text × Json)}
    (invokes : Invokes (.obj call)) : SameCall (first.spell call) (second.spell call) := by
  have same {key : Text} (isAssign : key ≠ Text.ofString "assign")
      (isNested : key ≠ Text.ofString "nested") :
      (second.spell call).field? key = (first.spell call).field? key := by
    rw [field?_spell _ _ isAssign isNested, field?_spell _ _ isAssign isNested]
  refine ⟨?_, same (by decide) (by decide), same (by decide) (by decide),
    same (by decide) (by decide)⟩
  unfold Invokes
  rwa [field?_spell _ _ (by decide) (by decide)]

/-- Whether two documents are the same but for the items that they list under a key, which are related
    one by one. -/
structure SameBut (key : Text) (related : Json → Json → Prop) (c d : Json) : Prop where
  kind : d.kindName = c.kindName
  fields : ∀ other, other ≠ key → d.field? other = c.field? other
  items : d.field? key = c.field? key ∨ ∃ listed others, c.field? key = some (.arr listed) ∧
    d.field? key = some (.arr others) ∧ List.Forall₂ related listed others

def RespelledStatement (s t : Json) : Prop := t = s ∨ SameCall s t

def RespelledMethod : Json → Json → Prop := SameBut "statements" RespelledStatement

def RespelledClass : Json → Json → Prop := SameBut "methods" RespelledMethod

/-- Whether two documents describe the same program, up to the spelling of its calls. -/
def Respelled : Json → Json → Prop := SameBut "classes" RespelledClass

/-! ## Reading them -/

/-- A call as a plain invocation. -/
def invocation (position : Nat) (document : Json) : Except Fault Statement := do
  let method ← invokedSignature document
  let argTypes ← itemsOf "args" document
  let targets ← targetsOf document
  return { kind := .invoke, method, argTypes, targets, index := .ofNat position }

theorem isSome_of_invokes {document : Json} (invokes : Invokes document) {method : Option Json}
    (read : invokedSignature document = .ok method) : method.isSome := by
  obtain ⟨signature, given, isGiven⟩ := invokes
  unfold invokedSignature at read
  rw [given] at read
  split at read
  · rename_i isNone
    cases isNone
  · rename_i isNull
    cases isNull
    exact absurd rfl isGiven
  · obtain ⟨parts, -, read⟩ := ok_of_exceptBind read
    cases read
    rfl

/-- Spelled out, a call is the same in each of its spellings. -/
theorem spelledOut_statement {document : Json} (invokes : Invokes document) (site : Text)
    (position : Nat) :
    (statement site position document).map Statement.spelledOut = invocation position document := by
  obtain ⟨fields, rfl⟩ : ∃ fields, document = .obj fields := by
    obtain ⟨signature, given, -⟩ := invokes
    cases document with
    | atom value | arr items => cases given
    | obj fields => exact ⟨fields, rfl⟩
  unfold statement invocation
  cases read : invokedSignature (.obj fields) with
  | error fault => rfl
  | ok method =>
      obtain ⟨signature, rfl⟩ := Option.isSome_iff_exists.mp (isSome_of_invokes invokes read)
      simp only [bind, Except.bind, Option.isNone_some, Bool.and_false, Bool.false_eq_true, if_false]
      cases itemsOf "args" (.obj fields) with
      | error fault => rfl
      | ok argTypes =>
          cases targetsOf (.obj fields) with
          | error fault => rfl
          | ok targets =>
              cases (Json.obj fields).hasTruthy "assign" with
              | false => exact congrArg Except.ok (Statement.spelledOut_mk (by nofun) rfl _)
              | true =>
                  cases (Json.obj fields).hasTruthy "nested" with
                  | false => exact congrArg Except.ok (Statement.spelledOut_mk (by nofun) rfl _)
                  | true => rfl

/-- Statements are read alike in each spelling. -/
theorem map_statement {s t : Json} (respelled : RespelledStatement s t) (site : Text)
    (position : Nat) :
    (statement site position s).map Statement.spelledOut =
      (statement site position t).map Statement.spelledOut := by
  rcases respelled with rfl | same
  · rfl
  · have invokes : Invokes t := by
      unfold Invokes
      rw [same.invoke]
      exact same.invokes
    rw [spelledOut_statement same.invokes, spelledOut_statement invokes]
    unfold invocation invokedSignature itemsOf targetsOf
    rw [same.invoke, same.args, same.targets]

theorem map_statementsFrom {documents others : List Json}
    (respelled : List.Forall₂ RespelledStatement documents others) (site : Text) (position : Nat) :
    (statementsFrom site position documents).map (List.map Statement.spelledOut) =
      (statementsFrom site position others).map (List.map Statement.spelledOut) := by
  have split (first : Json) (rest : List Json) (position : Nat) :
      (statementsFrom site position (first :: rest)).map (List.map Statement.spelledOut) = do
        let s ← (statement site position first).map Statement.spelledOut
        let others ← (statementsFrom site (position + 1) rest).map (List.map Statement.spelledOut)
        return s :: others := by
    rw [statementsFrom]
    cases statement site position first with
    | error fault => rfl
    | ok s => cases statementsFrom site (position + 1) rest <;> rfl
  induction respelled generalizing position with
  | nil => rfl
  | cons first _ ih => rw [split, split, map_statement first, ih]

namespace SameBut

variable {key : Text} {R : Json → Json → Prop} {c d : Json} (same : SameBut key R c d)

include same

theorem hasTruthy (other : Text) (isOther : other ≠ key) : d.hasTruthy other = c.hasTruthy other := by
  unfold Json.hasTruthy
  rw [same.fields other isOther]

theorem itemsOf (other : Text) (isOther : other ≠ key) :
    Description.itemsOf other d = Description.itemsOf other c := by
  unfold Description.itemsOf
  rw [same.fields other isOther]

/-- Under the key both list something, or neither does. -/
theorem runAlike_items (refl : ∀ document, R document document) :
    RunAlike (List.Forall₂ R) (ofExcept (Description.itemsOf key c) : Reading (List Json))
      (ofExcept (Description.itemsOf key d)) := by
  rcases same.items with unchanged | ⟨listed, others, given, givenOther, related⟩
  · have sameItems : Description.itemsOf key d = Description.itemsOf key c := by
      unfold Description.itemsOf
      rw [unchanged]
    rw [sameItems]
    cases Description.itemsOf key c with
    | error fault => exact .throw fault
    | ok items => exact .pure (List.forall₂_same.mpr fun document _ => refl document)
  · unfold Description.itemsOf
    rw [given, givenOther]
    exact .pure related

end SameBut

/-- Objects that list related items in one place. -/
theorem SameBut.obj (key : Text) {R : Json → Json → Prop} (before : List (Text × Json))
    (isNew : before.lookup key = none) {listed others : List Json}
    (related : List.Forall₂ R listed others) (after : List (Text × Json)) :
    SameBut key R (.obj (before ++ (key, .arr listed) :: after))
      (.obj (before ++ (key, .arr others) :: after)) where
  kind := rfl
  fields other isOther := by
    have skipped : (other == key) = false := beq_false_of_ne isOther
    simp [Json.field?, List.lookup_append, List.lookup, skipped]
  items := by
    refine .inr ⟨listed, others, ?_, ?_, related⟩ <;>
      simp [Json.field?, List.lookup_append, List.lookup, isNew]

theorem SameBut.refl (key : Text) (R : Json → Json → Prop) (document : Json) :
    SameBut key R document document := ⟨rfl, fun _ _ => rfl, .inl rfl⟩

/-- The method with its calls spelled out. -/
def Method.spelledOut (m : Method) : Method :=
  { m with body := m.body.map (List.map Statement.spelledOut) }

/-- The class with the calls of its methods spelled out. -/
def Class.spelledOut (c : Class) : Class :=
  { c with methods := c.methods.map (Prod.map id Method.spelledOut) }

/-- The rest of a method whose statements have been looked at. -/
def methodWith (className subsignature document : Json) (statements : Except Fault (List Statement)) :
    Reading Method := do
  let body ← ofExcept statements
  let loops ← loops (Signature.make className.display subsignature.display) body.length document
  return { declaringClass := className, subsignature, body := some body, loops }

theorem runAlike_methodWith {c d : Json} (respelled : RespelledMethod c d)
    (className subsignature : Json) {x y : Except Fault (List Statement)}
    (same : x.map (List.map Statement.spelledOut) = y.map (List.map Statement.spelledOut)) :
    RunAlike (fun m n => m.spelledOut = n.spelledOut) (methodWith className subsignature c x)
      (methodWith className subsignature d y) := by
  -- The loops depend on the number of statements only.
  have sameLoops (site : Text) (length : Nat) : loops site length d = loops site length c := by
    unfold loops
    rw [respelled.fields _ (by decide), respelled.fields _ (by decide)]
  apply (RunAlike.ofExcept same).bind
  intro body other sameBody
  have sameLength : other.length = body.length := by
    simpa using (congrArg List.length sameBody).symm
  rw [sameLength, sameLoops]
  apply (RunAlike.refl _).bind
  rintro loops _ rfl
  apply RunAlike.pure
  simp only [Method.spelledOut, Option.map_some, sameBody]

theorem runAlike_method {c d : Json} (respelled : RespelledMethod c d) (className : Json) :
    RunAlike (fun m n => m.spelledOut = n.spelledOut) (method className c) (method className d) := by
  unfold method
  rw [respelled.fields "subsignature" (by decide), respelled.hasTruthy "phantom" (by decide)]
  cases c.field? "subsignature" with
  | none => exact .throw _
  | some subsignature =>
      cases c.hasTruthy "phantom" with
      | true => exact .pure rfl
      | false =>
          rcases respelled.items with unchanged | ⟨listed, others, given, givenOther, related⟩
          · rw [unchanged]
            cases c.field? "statements" with
            | none => exact .pure rfl
            | some statements => exact runAlike_methodWith respelled _ subsignature rfl
          · rw [given, givenOther]
            exact runAlike_methodWith respelled _ subsignature (map_statementsFrom related _ _)

/-- What is filed under a key, with its calls spelled out. -/
def Class.filed (entry : Atom × Class) : Atom × Class := (entry.1, entry.2.spelledOut)

theorem keyed_spelledOut (className : Json) (m : Method) :
    keyed className m.spelledOut = (keyed className m).map (Prod.map id Method.spelledOut) := by
  unfold keyed
  by_cases foreign : (!m.declaringClass.equals className) = true
  · have foreignThere : (!m.spelledOut.declaringClass.equals className) = true := foreign
    rw [if_pos foreign, if_pos foreignThere]
    rfl
  · have ownThere : ¬ (!m.spelledOut.declaringClass.equals className) = true := foreign
    have key : m.spelledOut.subsignature.asKey = m.subsignature.asKey := rfl
    rw [if_neg foreign, if_neg ownThere, key]
    cases m.subsignature.asKey <;> rfl

theorem runAlike_classOf {c d : Json} (respelled : RespelledClass c d) :
    RunAlike (fun c d => c.spelledOut = d.spelledOut) (classOf c) (classOf d) := by
  unfold classOf
  dsimp only
  rw [respelled.fields "name" (by decide), respelled.fields "superclass" (by decide),
    respelled.itemsOf "interfaces" (by decide), respelled.hasTruthy "interface" (by decide)]
  split
  · exact .throw _
  · apply (respelled.runAlike_items (SameBut.refl _ _)).bind
    intro documents others related
    apply (RunAlike.mapM related fun _ _ same => runAlike_method same _).bind
    intro methods others related
    apply (RunAlike.refl _).bind
    rintro interfaces _ rfl
    have sameKeys (m n : Method) (same : m.spelledOut = n.spelledOut) (className : Json) :
        (keyed className m).map (Prod.map id Method.spelledOut) =
          (keyed className n).map (Prod.map id Method.spelledOut) := by
      rw [← keyed_spelledOut, same, keyed_spelledOut]
    apply (RunAlike.mapM related fun m n same => RunAlike.ofExcept (sameKeys m n same _)).bind
    intro entries others related
    apply RunAlike.pure
    have sameEntries := (map_eq_map_iff fun _ _ => Iff.rfl).mp related
    simp only [Class.spelledOut, sameEntries]

theorem addClass_of_key (found : List (Atom × Class)) {c : Class} {key : Atom}
    (isKey : c.name.asKey = .ok key) : addClass found c =
      if found.any (fun entry => entry.1.sameKey key) then refuse (.duplicateClass key.display)
      else .ok (found ++ [(key, c)]) := by
  unfold addClass
  rw [isKey]
  rfl

theorem addClass_spelledOut (found : List (Atom × Class)) (c : Class) :
    addClass (found.map Class.filed) c.spelledOut = (addClass found c).map (List.map Class.filed) := by
  cases isKey : c.name.asKey with
  | error fault =>
      have isKeyThere : c.spelledOut.name.asKey = .error fault := isKey
      unfold addClass
      rw [isKey, isKeyThere]
      rfl
  | ok key =>
      have isKeyThere : c.spelledOut.name.asKey = .ok key := isKey
      rw [addClass_of_key found isKey, addClass_of_key _ isKeyThere, List.any_map]
      by_cases known : (found.any fun entry => entry.1.sameKey key) = true
      · rw [if_pos known]
        exact if_pos known
      · rw [if_neg known, Except.map, List.map_append]
        exact if_neg known

theorem accept_spelledOut (config : Config) (check : Text → Except Fault Unit) (entry : Atom × Class) :
    Class.accept check (Class.filed entry) =
      (Class.accept check entry).map (·.through (.spelling config)) := by
  obtain ⟨name, c⟩ := entry
  have methods : c.spelledOut.procedures name =
      (c.procedures name).map (·.through (.spelling config)) := by
    simp [Class.procedures, Class.spelledOut, Method.spelledOut, Method.declare, Procedure.through,
      View.spelling]
  have declared : c.spelledOut.declare name = (c.declare name).map (·.through (.spelling config)) :=
    (congrArg _ methods).trans (ClassDecl.make_through _ _ _)
  unfold Class.accept Class.filed
  dsimp only
  cases (Json.atom name).asText "rpartition" with
  | error fault => rfl
  | ok text =>
      simp only [bind, Except.bind]
      cases check text with
      | error fault => rfl
      | ok done => exact declared

theorem runAlike_classes {documents others : List Json}
    (respelled : List.Forall₂ RespelledClass documents others) (config : Config)
    (check : Text → Except Fault Unit) :
    RunAlike (fun declared others => declared.map (·.through (.spelling config)) =
        others.map (·.through (.spelling config)))
      (classes check documents) (classes check others) := by
  have found : RunAlike (fun found others => found.map Class.filed = others.map Class.filed)
      (documents.foldlM fileClass []) (others.foldlM fileClass []) := by
    refine RunAlike.foldlM respelled ?_ rfl
    intro c d same found others sameFound
    apply (runAlike_classOf same).bind
    intro c d same
    apply RunAlike.ofExcept
    rw [← addClass_spelledOut, sameFound, same, addClass_spelledOut]
  apply found.bind
  intro found others sameFound
  have related := (map_eq_map_iff fun _ _ => Iff.rfl).mpr sameFound
  have accepted := RunAlike.mapM related fun entry other same =>
    RunAlike.ofExcept (σ := Log) (f := (·.through (.spelling config))) (x := Class.accept check entry)
      (y := Class.accept check other) (by rw [← accept_spelledOut, same, accept_spelledOut])
  intro log
  exact (accepted log).imp (fun _ _ => (map_eq_map_iff fun _ _ => Iff.rfl).mp) fun _ _ same => same

theorem exists_obj_iff {document : Json} :
    document.kindName = "dict" ↔ ∃ fields, document = .obj fields := by
  constructor
  · intro isDict
    cases document with
    | obj fields => exact ⟨fields, rfl⟩
    | arr items => simp [Json.kindName] at isDict
    | atom value => cases value <;> simp [Json.kindName] at isDict
  · rintro ⟨fields, rfl⟩
    rfl

theorem program_of_not_obj {document : Json} (isOther : ¬ ∃ fields, document = .obj fields)
    {config : Config} : program config document = throw (.notObject document.kindName) := by
  cases document with
  | obj fields => exact absurd ⟨fields, rfl⟩ isOther
  | arr items | atom value => rfl

/-- Descriptions that differ in the spelling of calls are both refused, for the same reason, or both
    accepted. -/
theorem runAlike_program {document other : Json} (respelled : Respelled document other)
    (config : Config) :
    RunAlike (fun first second => first.through (.spelling config) = second.through (.spelling config))
      (program config document) (program config other) := by
  have read {documents others : List Json} (related : List.Forall₂ RespelledClass documents others) :
      RunAlike (fun first second => first.through (.spelling config) = second.through (.spelling config))
        (programOf config (fun _ => .ok ()) documents)
        (programOf config (fun _ => .ok ()) others) := by
    apply (runAlike_classes related config _).bind
    intro declared others same
    have sameClasses : (Program.ofClasses config declared).map (·.through (.spelling config)) =
        (Program.ofClasses config others).map (·.through (.spelling config)) := by
      unfold Program.ofClasses
      rw [← Program.addClasses_through, same, Program.addClasses_through]
    apply (RunAlike.ofExcept sameClasses).bind
    intro first second same
    have sameSize : first.classes.size = second.classes.size := by
      have := congrArg (fun p : Program => p.classes.size) same
      simpa [Program.through] using this
    have sameCount : first.applicationProcedures.length = second.applicationProcedures.length := by
      have := congrArg (fun p : Program => p.applicationProcedures.length) same
      simpa [Program.applicationProcedures_through] using this
    rw [sameSize, sameCount]
    exact (RunAlike.refl _).bind fun _ _ _ => .pure same
  by_cases isObject : ∃ fields, document = .obj fields
  · obtain ⟨otherFields, rfl⟩ := exists_obj_iff.mp
      (respelled.kind.trans (exists_obj_iff.mpr isObject))
    obtain ⟨fields, rfl⟩ := isObject
    unfold program checkedProgram
    rcases respelled.items with unchanged | ⟨listed, others, given, givenOther, related⟩
    · dsimp only
      rw [unchanged]
      split
      · exact read (List.forall₂_same.mpr fun c _ => SameBut.refl _ _ c)
      · exact .throw _
    · dsimp only
      rw [given, givenOther]
      exact read related
  · have isOther : ¬ ∃ fields, other = .obj fields := fun isObjectThere =>
      isObject (exists_obj_iff.mp (respelled.kind.symm.trans (exists_obj_iff.mpr isObjectThere)))
    rw [program_of_not_obj isObject, program_of_not_obj isOther, respelled.kind]
    exact .throw _

theorem settled_program {config : Config} {document : Json} {log log' : Log} {loaded : Program}
    (read : program config document log = .ok loaded log') : loaded.Settled config := by
  obtain ⟨built, sound⟩ := sound_program read
  apply Program.settled_of_classes _ built
  intro c isClass
  obtain ⟨shell, methods, made, -⟩ := sound c isClass
  exact ⟨shell, methods, made⟩

end Description

/-! ## Analysing them -/

/-- The loop depths of all declared methods. -/
def Program.depthMaps (program : Program) : List DepthMap :=
  (program.classes.values.flatMap (·.methods)).map (·.depthMap)

/-- What an edge tells apart from the bodies of its ends. -/
def CallEdge.outline (e : CallEdge) : Text × Site × Json × Text × EdgeKind :=
  (e.source.signature, e.site, e.index, e.target.signature, e.kind)

theorem CallEdge.map_outline_of_through {config : Config} {view : View config}
    {edges others : List CallEdge} (same : edges.map (·.through view) = others.map (·.through view)) :
    edges.map outline = others.map outline := by
  have outlined (edges : List CallEdge) : (edges.map (·.through view)).map outline = edges.map outline := by
    simp [outline, through, Function.comp_def]
  rw [← outlined, same, outlined]

theorem Program.depthMaps_spelling (config : Config) (program : Program) :
    (program.through (.spelling config)).depthMaps = program.depthMaps := by
  have kept (p : Procedure) : (p.through (.spelling config)).depthMap = p.depthMap := rfl
  simp [depthMaps, through, ClassDecl.through, List.flatMap_map, List.map_flatMap, kept, Function.comp_def]

namespace Analysis

/-- Whether two analyses find the same: the same edges, the same costs in each part of the store, the
    same recursive sets and the same issues. -/
structure FindsSame (a b : Analysis) : Prop where
  edges : a.graph.edges.map (·.outline) = b.graph.edges.map (·.outline)
  synthetic : a.synthetic.map (·.outline) = b.synthetic.map (·.outline)
  store : a.store = b.store
  cycles : a.cycles = b.cycles
  issues : a.issues = b.issues

theorem findsSame_of_through {config : Config} {view : View config} {a b : Analysis}
    (same : a.through view = b.through view) : a.FindsSame b := by
  simp only [through, mk.injEq, CallGraph.through, CallGraph.mk.injEq] at same
  obtain ⟨store, ⟨-, edges, -⟩, issues, synthetic, cycles⟩ := same
  exact ⟨CallEdge.map_outline_of_through edges, CallEdge.map_outline_of_through synthetic, store, cycles,
    issues⟩

/-- How a description spells its calls does not matter. Two descriptions that differ in nothing else
    are both refused for the same reason, or give programs with the same loop depths. Their analyses
    then end with the same fault, or find the same edges, costs, recursive sets and issues. The same
    questions may fail in both. -/
theorem call_spelling_has_no_influence {document other : Json}
    (respelled : Description.Respelled document other) (config : Config)
    (failures : List QueryFailure) (log : Log) :
    EndAlike (fun first second => first.depthMaps = second.depthMaps ∧
        EndAlike FindsSame (fun i j => i.log = j.log) (ofProgram { program := first, failures })
          (ofProgram { program := second, failures }))
      Eq (Description.program config document log) (Description.program config other log) := by
  refine (Description.runAlike_program respelled config log).imp ?_ fun _ _ sameLog => sameLog
  intro first second _ _ read readOther same
  constructor
  · rw [← first.depthMaps_spelling config, same, second.depthMaps_spelling]
  · have alike := endAlike_ofProgram (Description.settled_program read)
      (Description.settled_program readOther) same failures
    exact alike.imp (fun _ _ => findsSame_of_through) fun _ _ sameLog => sameLog

/-- Submits a task. -/
def submitCall : List (Text × Json) := [
  ("invoke", .text ("<java.util.concurrent.ExecutorService: "
    ++ "java.util.concurrent.Future submit(java.lang.Runnable)>")),
  ("args", .arr [.text "app.Job"])]

/-- Runs a task, or the main method again. -/
def runCall : List (Text × Json) := [
  ("invoke", .text "<app.Job: void run()>"),
  ("targets", .arr [.text "<app.Job: void run()>", .text "<app.Main: void main()>"])]

/-- An application that submits a task once and runs it in a loop, in any spelling of the two. -/
def submission (submit run : Description.CallForm) : Json :=
  .obj [("classes", .arr [
    .obj [("name", .text "app.Main"), ("methods", .arr [
      .obj [("subsignature", .text "void main()"),
        ("statements", .arr [submit.spell submitCall, run.spell runCall]),
        ("loops", .arr [.arr [.int 1]])]])],
    .obj [("name", .text "app.Job"), ("interfaces", .arr [.text "java.lang.Runnable"]),
      ("methods", .arr [.obj [("subsignature", .text "void run()"), ("statements", .arr [])]])]])]

open Description in
theorem respelled_submission (submit run submitOther runOther : CallForm) :
    Respelled (submission submit run) (submission submitOther runOther) := by
  have calls : List.Forall₂ RespelledStatement [submit.spell submitCall, run.spell runCall]
      [submitOther.spell submitCall, runOther.spell runCall] :=
    .cons (.inr (submit.sameCall submitOther ⟨_, rfl, nofun⟩))
      (.cons (.inr (run.sameCall runOther ⟨_, rfl, nofun⟩)) .nil)
  have main := SameBut.obj "statements" [("subsignature", .text "void main()")] rfl calls
    [("loops", .arr [.arr [.int 1]])]
  have mainClass := SameBut.obj (R := RespelledMethod) "methods" [("name", .text "app.Main")] rfl
    (.cons main .nil) []
  exact SameBut.obj "classes" [] rfl (.cons mainClass (.cons (SameBut.refl _ _ _) .nil)) []

/-- A nested submission and an assigned run are found like two plain calls. -/
theorem call_spelling_has_no_influence_of_submission :
    ∃ first second a b log after after',
      Description.program {} (submission .plain .plain) #[] = .ok first log ∧
      Description.program {} (submission .nested .assigned) #[] = .ok second log ∧
      ofProgram { program := first } = .ok a after ∧
      ofProgram { program := second } = .ok b after' ∧
      a.FindsSame b ∧ a.graph.edges.length = 4 ∧ a.synthetic.length = 1 ∧ a.cycles.length = 1 := by
  obtain ⟨first, a, log, after, read, returned, counts⟩ : ∃ first a log after,
      Description.program {} (submission .plain .plain) #[] = .ok first log ∧
      ofProgram { program := first } = .ok a after ∧
      a.graph.edges.length = 4 ∧ a.synthetic.length = 1 ∧ a.cycles.length = 1 :=
    ⟨_, _, _, _, by cbv, by cbv, by cbv, by cbv, by cbv⟩
  have alike := call_spelling_has_no_influence (respelled_submission .plain .plain .nested .assigned)
    {} [] #[]
  rw [read] at alike
  obtain ⟨second, _, readOther, ⟨-, analysed⟩, rfl⟩ := alike.exists_ok
  rw [returned] at analysed
  obtain ⟨b, after', returnedOther, same, -⟩ := analysed.exists_ok
  exact ⟨first, second, a, b, log, after, after', read, readOther, returned, returnedOther, same, counts⟩

end Analysis

end CallWeight
