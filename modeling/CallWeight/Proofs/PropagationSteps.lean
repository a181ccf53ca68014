import CallWeight.Proofs.GraphOrigin
import CallWeight.Proofs.LocalCosts

/-! # Propagation in steps

While all questions are answered, a propagation makes one of three moves at a time: a procedure whose
turn has come enters with its local cost, the frame on top folds in its next call, or the frame on top
is finished. Only the propagated records, the resolved signatures and the stack matter to what is
propagated; the three of them are the progress of a propagation, and every move is a step of it.
Whatever every step preserves holds in the end.
-/

namespace CallWeight

/-- Statement index, loop depth and target of every edge out of every call site of a procedure, in the
    order of the statements and of their edges, with the loop depths given by position. -/
def Procedure.callTriples (p : Procedure) (g : CallGraph) (depthOf : Nat → Nat) :
    List (Json × Nat × Procedure) :=
  (p.statements.zipIdx.filter (·.1.isCall)).flatMap fun (s, position) =>
    (g.edgesOutOf (p.site position)).map fun e => (s.index, depthOf position, e.target)

theorem Procedure.map_callsAt (p : Procedure) (g : CallGraph) (depths : DepthMap) :
    ((p.placed p.statements).flatMap (Propagation.callsAt g depths)).map
        (fun call => (call.index, call.depth, call.target)) =
      p.callTriples g fun position => depths.depthAt (p.site position) := by
  unfold placed callTriples
  generalize p.statements.zipIdx = statements
  induction statements with
  | nil => rfl
  | cons entry rest ih =>
      obtain ⟨s, position⟩ := entry
      simp only [List.map_cons, List.flatMap_cons, List.map_append, ih]
      by_cases isCall : s.isCall
      · have here : (Propagation.callsAt g depths (p.site position, s)).map
            (fun call => (call.index, call.depth, call.target)) = (g.edgesOutOf (p.site position)).map
            fun e => (s.index, depths.depthAt (p.site position), e.target) := by
          simp [Propagation.callsAt, isCall, Function.comp_def]
        simp [here, isCall]
      · simp [Propagation.callsAt, isCall]

/-- All calls of a procedure, one per edge of a call site. -/
def Procedure.calls (p : Procedure) (g : CallGraph) : List (PendingCall g) :=
  (p.placed p.statements).flatMap (Propagation.callsAt g p.depthMap)

/-- The calls of a procedure in the order of its call sites and of their edges. -/
theorem Procedure.map_calls (p : Procedure) (g : CallGraph) :
    (p.calls g).map (fun call => (call.depth, call.target)) =
      p.callSites.flatMap fun position =>
        (g.edgesOutOf (p.site position)).map fun e => (p.loops.depthOf position, e.target) := by
  have triples := congrArg (List.map Prod.snd) (p.map_callsAt g p.depthMap)
  simpa [calls, callSites, callTriples, List.map_flatMap, List.flatMap_map, depthAt_site,
    Function.comp_def] using triples

theorem Procedure.mem_calls {p : Procedure} {g : CallGraph} {call : PendingCall g}
    (isCall : call ∈ p.calls g) : ∃ position ∈ p.callSites, ∃ e ∈ g.edgesOutOf (p.site position),
      call.depth = p.loops.depthOf position ∧ call.target = e.target := by
  have listed : (call.depth, call.target) ∈ (p.calls g).map fun call => (call.depth, call.target) :=
    List.mem_map_of_mem isCall
  rw [map_calls, List.mem_flatMap] at listed
  obtain ⟨position, isSite, listed⟩ := listed
  obtain ⟨e, leaves, same⟩ := List.mem_map.mp listed
  obtain ⟨depth, target⟩ := Prod.mk.inj same
  exact ⟨position, isSite, e, leaves, depth.symm, target.symm⟩

/-- Whether a procedure is application code. -/
def Program.Counts (program : Program) (p : Procedure) : Prop :=
  program.config.isApplicationClass p.declaringClass = true

structure Progress (g : CallGraph) where
  records : Text → Option CostRecord
  resolved : List Text
  stack : List (Frame g)

namespace Progress

variable {g : CallGraph} {program : Program}

/-- Replace the record of a signature. -/
def write (s : Progress g) (signature : Text) (r : CostRecord) : Progress g :=
  { s with records := fun other => if signature = other then some r else s.records other }

/-- What a propagation has achieved. -/
def ofPropagation (s : Propagation g) : Progress g :=
  { records := s.costs.store.propagated.get?, resolved := s.resolved, stack := s.stack }

/-- Whether it is the turn of a procedure: nothing is unfinished, or the next call on top of the stack
    leads to it. -/
def Due (s : Progress g) (p : Procedure) : Prop :=
  s.stack = [] ∨ ∃ caller call pending rest,
    s.stack = { procedure := caller, pending := call :: pending } :: rest ∧ call.target = p

/-- Whether a record is what folding in a target takes: the record of the target so far, and nothing
    from library code. -/
structure Offers (program : Program) (s : Progress g) (target : Procedure) (r : CostRecord) :
    Prop where
  application : program.Counts target →
    target.signature ∈ s.resolved ∧ s.records target.signature = some r
  library : ¬ program.Counts target → r.static = 0 ∧ r.approx = 0

/-- One step of a propagation over the procedures of a program. -/
inductive Step (program : Program) : Progress g → Progress g → Prop
  | enter {s : Progress g} {p : Procedure} (known : program.Knows p) (counts : program.Counts p)
      (isNew : p.signature ∉ s.resolved) (due : s.Due p) :
      Step program s
        { s.write p.signature p.localRecord with
          resolved := p.signature :: s.resolved
          stack := { procedure := p, pending := p.calls g } :: s.stack }
  | fold {s : Progress g} {p : Procedure} {call : PendingCall g} {pending : List (PendingCall g)}
      {rest : List (Frame g)} {own callee : CostRecord}
      (onTop : s.stack = { procedure := p, pending := call :: pending } :: rest)
      (recorded : s.records p.signature = some own)
      (offered : s.Offers program call.target callee) :
      Step program s
        { s.write p.signature (own.absorb callee call.depth) with
          stack := { procedure := p, pending } :: rest }
  | finish {s : Progress g} {p : Procedure} {rest : List (Frame g)}
      (onTop : s.stack = { procedure := p, pending := [] } :: rest) :
      Step program s { s with stack := rest }

theorem Step.resolved_subset {s t : Progress g} (step : Step program s t) :
    s.resolved ⊆ t.resolved := by
  cases step with
  | enter => exact List.subset_cons_self _ _
  | fold | finish => exact List.Subset.refl _

/-- The progress of a propagation that has not begun. -/
def none : Progress g := { records := fun _ => .none, resolved := [], stack := [] }

/-- What holds at first and is preserved by every step holds in the end. -/
theorem holds_of_steps {P : Progress g → Prop} (first : P .none)
    (preserved : ∀ {s t}, P s → Step program s t → P t)
    (steps : Relation.ReflTransGen (Step program) .none s) : P s := by
  induction steps with
  | refl => exact first
  | tail _ step ih => exact preserved ih step

end Progress

namespace Propagation

variable {g : CallGraph} {costs : Costs}

/-! ## What the parts of a propagation do -/

theorem localRecord_of_noBody {p : Procedure} (noBody : p.body = none) :
    p.localRecord = { procedure := some p.signature } := by
  simp [Procedure.localRecord, Procedure.statements, noBody, Procedure.placed, CostRecord.ofCalls]

theorem localCost_of_counted {p : Procedure} {r : CostRecord}
    (counted : costs.store.locals.get? p.signature = some r) :
    Costing.localCost p costs = .ok r costs := by
  have started : (get : Costing Costs) costs = .ok costs costs := rfl
  refine (bind_of_ok started).trans ?_
  simp only [counted, Option.some_or]
  rfl

theorem enter_spec (reliable : costs.inspection.Reliable) {p : Procedure}
    (known : costs.inspection.program.Knows p)
    (counted : p.body.isSome → costs.store.locals.get? p.signature = some p.localRecord) :
    ∃ i, enter (g := g) p costs =
        ({ inspection := i, store := costs.store.put p.signature p.localRecord },
          [{ procedure := p, pending := p.calls g }]) ∧
      costs.inspection.Later i ∧ i.issues = costs.inspection.issues := by
  unfold enter
  rw [begin_eq, reliable.body]
  cases hasBody : p.body with
  | none =>
      have record := localRecord_of_noBody hasBody
      refine ⟨(registerLeaf p costs).inspection, ?_, .of_eq rfl rfl, rfl⟩
      simp only [record, Procedure.calls, Procedure.statements, hasBody]
      rfl
  | some body =>
      obtain ⟨j, looked, later, silent⟩ := reliable.depthMap known
      have seeded := localCost_of_counted (counted (by simp [hasBody]))
      refine ⟨j, ?_, later, silent⟩
      simp only [seeded, Costing.inspect, looked, Procedure.calls, Procedure.statements, hasBody,
        Option.getD_some]

theorem cost_asked (reliable : costs.inspection.Reliable) (p : Procedure) :
    Costing.inspect (Inspecting.ask fun i => i.answer .cost (.text p.signature) (.ok ())) costs =
      .ok () costs :=
  Costing.inspect_of_ok (Inspecting.ask_of_ok (reliable.answer _ _ _))

theorem cost_of_best {p : Procedure} (reliable : costs.inspection.Reliable) {r : CostRecord}
    (best : costs.store.best? p.signature = some r) : Costing.cost p costs = .ok r costs := by
  have asked := cost_asked reliable p
  have started : (get : Costing Costs) costs = .ok costs costs := rfl
  refine (bind_of_ok asked).trans ((bind_of_ok started).trans ?_)
  simp only [best]
  rfl

theorem cost_of_library {p : Procedure} (reliable : costs.inspection.Reliable)
    (known : costs.inspection.program.Knows p)
    (isLibrary : ¬ costs.inspection.program.Counts p)
    (noBest : costs.store.best? p.signature = none) :
    ∃ i, Costing.cost p costs = .ok { procedure := some p.signature }
        { inspection := i
          store := costs.store.putExternal p.signature { procedure := some p.signature } } ∧
      costs.inspection.Later i ∧ i.issues = costs.inspection.issues := by
  have asked := cost_asked reliable p
  have started : (get : Costing Costs) costs = .ok costs costs := rfl
  have extracted := reliable.extract_library known (Bool.eq_false_iff.mpr isLibrary)
  refine ⟨costs.inspection.debug .store ("Created external features for " ++ p.signature), ?_,
    .of_eq rfl rfl, rfl⟩
  refine (bind_of_ok asked).trans ((bind_of_ok started).trans ?_)
  simp only [noBest]
  exact bind_of_ok (Costing.inspect_of_ok extracted)

/-! ## Every move of a propagation is a step -/

/-- What holds of a propagation while all questions are answered. -/
structure Ready (start : Inspection) (s : Propagation g) : Prop where
  later : start.Later s.costs.inspection
  locals : ∀ p ∈ start.program.applicationProcedures,
    s.costs.store.locals.get? p.signature = some p.localRecord
  onlyLocals : ∀ {signature r}, s.costs.store.locals.get? signature = some r →
    ∃ p ∈ start.program.applicationProcedures, p.signature = signature
  external : ∀ {signature r}, s.costs.store.external.get? signature = some r →
    r.static = 0 ∧ r.approx = 0
  recorded : ∀ signature, (s.costs.store.propagated.get? signature).isSome ↔ signature ∈ s.resolved
  counts : ∀ {p}, start.program.Knows p → p.signature ∈ s.resolved → start.program.Counts p
  frames : ∀ frame ∈ s.stack, start.program.Knows frame.procedure ∧
    frame.procedure.signature ∈ s.resolved ∧
    ∀ call ∈ frame.pending, start.program.Knows call.target

/-- Whether it is the turn of a procedure: it is application code and nothing is unfinished, or the
    next call on top of the stack leads to it. -/
def Due (start : Inspection) (s : Propagation g) (p : Procedure) : Prop :=
  s.stack = [] ∧ p ∈ start.program.applicationProcedures ∨ ∃ caller call pending rest,
    s.stack = { procedure := caller, pending := call :: pending } :: rest ∧ call.target = p

/-- One move of a propagation while all questions are answered. -/
inductive Move (start : Inspection) : Propagation g → Propagation g → Prop
  | finish {s : Propagation g} {p : Procedure} {rest : List (Frame g)}
      (onTop : s.stack = { procedure := p, pending := [] } :: rest) :
      Move start s { s with stack := rest }
  | fold {s : Propagation g} {p : Procedure} {call : PendingCall g}
      {pending : List (PendingCall g)} {rest : List (Frame g)}
      (onTop : s.stack = { procedure := p, pending := call :: pending } :: rest)
      (isReady : call.target.signature ∈ s.resolved ∨ ¬ start.program.Counts call.target) :
      Move start s
        { s with costs := foldCall p call s.costs, stack := { procedure := p, pending } :: rest }
  | enter {s : Propagation g} {p : Procedure} (known : start.program.Knows p)
      (counts : start.program.Counts p) (isNew : p.signature ∉ s.resolved) (due : s.Due start p) :
      Move start s
        { costs := (enter (g := g) p s.costs).1
          resolved := p.signature :: s.resolved
          stack := (enter p s.costs).2 ++ s.stack }

/-- What asking for the cost of a target gives, and what becomes of the inspection and of the external
    records. -/
structure Priced (start : Inspection) (s : Propagation g) (target : Procedure) (callee : CostRecord)
    (i : Inspection) (external : OrderedMap Text CostRecord) : Prop where
  offers : (Progress.ofPropagation s).Offers start.program target callee
  cost : Costing.cost target s.costs =
    .ok callee { inspection := i, store := { s.costs.store with external } }
  later : s.costs.inspection.Later i
  silent : i.issues = s.costs.inspection.issues
  zeros : ∀ {signature r}, external.get? signature = some r → r.static = 0 ∧ r.approx = 0
  keys : ∀ signature, (external.get? signature).isSome ↔
    (s.costs.store.external.get? signature).isSome ∨
      ¬ start.program.Counts target ∧ target.signature = signature

theorem foldCall_of_cost {p : Procedure} {call : PendingCall g} {own callee : CostRecord}
    {after : Costs} (priced : Costing.cost call.target costs = .ok callee after)
    (recorded : after.store.propagated.get? p.signature = some own) :
    ∃ i, foldCall p call costs =
        { inspection := i
          store := after.store.put p.signature (own.absorb callee call.depth) } ∧
      after.inspection.Later i ∧ i.issues = after.inspection.issues := by
  simp only [foldCall, priced, recorded, Option.getD_some]
  exact ⟨_, rfl, .of_eq rfl rfl, rfl⟩

namespace Ready

variable {start : Inspection} {s : Propagation g} (ready : Ready start s)
  (reliable : start.Reliable)

include ready reliable

theorem reliableNow : s.costs.inspection.Reliable := reliable.later ready.later

omit reliable in
theorem countsNow_iff (p : Procedure) :
    s.costs.inspection.program.Counts p ↔ start.program.Counts p := by
  unfold Program.Counts
  rw [ready.later.program.config]

theorem isApplication_eq {p : Procedure} (known : start.program.Knows p) :
    s.costs.inspection.isApplication p =
      .ok (start.program.config.isApplicationClass p.declaringClass) := by
  rw [← ready.later.program.config]
  exact (ready.reliableNow reliable).isApplication (ready.later.program.knows known)

/-- Library code has no local record. -/
theorem noLocals {p : Procedure} (known : start.program.Knows p)
    (isLibrary : ¬ start.program.Counts p) : s.costs.store.locals.get? p.signature = none := by
  cases found : s.costs.store.locals.get? p.signature with
  | none => rfl
  | some r =>
      obtain ⟨q, listed, same⟩ := ready.onlyLocals found
      obtain ⟨qKnown, qCounts⟩ :=
        reliable.coherent.knows_of_application reliable.named listed
      exact absurd (qKnown.eq known same ▸ qCounts) isLibrary

theorem priced_of_resolved {target : Procedure} (known : start.program.Knows target)
    (isResolved : target.signature ∈ s.resolved) :
    ∃ callee, Priced start s target callee s.costs.inspection s.costs.store.external := by
  obtain ⟨callee, found⟩ := Option.isSome_iff_exists.mp
    ((ready.recorded target.signature).mpr isResolved)
  have best : s.costs.store.best? target.signature = some callee := by
    simp [CostStore.best?, found]
  have counts := ready.counts known isResolved
  exact ⟨callee,
    { offers := ⟨fun _ => ⟨isResolved, found⟩, absurd counts⟩
      cost := cost_of_best (ready.reliableNow reliable) best
      later := .refl _
      silent := rfl
      zeros := ready.external
      keys := fun _ => (or_iff_left fun isLibrary => isLibrary.1 counts).symm }⟩

/-- Library code was neither counted nor resolved, so only an external record can be there. -/
theorem priced_of_library {target : Procedure} (known : start.program.Knows target)
    (isNew : target.signature ∉ s.resolved) (isLibrary : ¬ start.program.Counts target) :
    ∃ callee i external, Priced start s target callee i external := by
  have reliableNow := ready.reliableNow reliable
  have noRecord : s.costs.store.propagated.get? target.signature = none :=
    Option.not_isSome_iff_eq_none.mp (mt (ready.recorded _).mp isNew)
  have best : s.costs.store.best? target.signature =
      s.costs.store.external.get? target.signature := by
    simp [CostStore.best?, noRecord, ready.noLocals reliable known isLibrary]
  cases found : s.costs.store.external.get? target.signature with
  | some callee =>
      refine ⟨callee, s.costs.inspection, s.costs.store.external,
        { offers := ⟨fun counts => absurd counts isLibrary, fun _ => ready.external found⟩
          cost := cost_of_best reliableNow (best.trans found)
          later := .refl _
          silent := rfl
          zeros := ready.external
          keys := fun signature => (or_iff_left_of_imp fun isTarget => ?_).symm }⟩
      rw [← isTarget.2, found]
      rfl
  | none =>
      obtain ⟨i, priced, later, silent⟩ := cost_of_library reliableNow
        (ready.later.program.knows known) (mt (ready.countsNow_iff _).mp isLibrary)
        (best.trans found)
      refine ⟨_, i, _,
        { offers := ⟨fun counts => absurd counts isLibrary, fun _ => ⟨rfl, rfl⟩⟩
          cost := priced
          later
          silent
          zeros := fun {signature r} entry => ?_
          keys := fun signature => ?_ }⟩
      · rw [OrderedMap.get?_insert] at entry
        split at entry
        · cases entry
          exact ⟨rfl, rfl⟩
        · exact ready.external entry
      · rw [OrderedMap.get?_insert]
        by_cases same : target.signature = signature
        · simp [same, isLibrary]
        · simp [same]

/-- What folding in a call does to the store. -/
theorem foldCall_spec {p : Procedure} {call : PendingCall g}
    (known : start.program.Knows call.target) {own : CostRecord}
    (recorded : s.costs.store.propagated.get? p.signature = some own)
    (isReady : call.target.signature ∈ s.resolved ∨ ¬ start.program.Counts call.target) :
    ∃ callee i external, (Progress.ofPropagation s).Offers start.program call.target callee ∧
      foldCall p call s.costs =
        { inspection := i
          store := { s.costs.store with external }.put p.signature
            (own.absorb callee call.depth) } ∧
      s.costs.inspection.Later i ∧ i.issues = s.costs.inspection.issues ∧
      (∀ {signature r}, external.get? signature = some r → r.static = 0 ∧ r.approx = 0) ∧
      ∀ signature, (external.get? signature).isSome ↔
        (s.costs.store.external.get? signature).isSome ∨
          ¬ start.program.Counts call.target ∧ call.target.signature = signature := by
  obtain ⟨callee, j, external, priced⟩ : ∃ callee j external,
      Priced start s call.target callee j external := by
    by_cases isResolved : call.target.signature ∈ s.resolved
    · obtain ⟨callee, priced⟩ := ready.priced_of_resolved reliable known isResolved
      exact ⟨callee, _, _, priced⟩
    · exact ready.priced_of_library reliable known isResolved (isReady.resolve_left isResolved)
  obtain ⟨i, folded, later, silent⟩ := foldCall_of_cost (p := p) priced.cost recorded
  exact ⟨callee, i, external, priced.offers, folded, priced.later.trans later,
    silent.trans priced.silent, priced.zeros, priced.keys⟩

omit reliable in
theorem targetKnown {p : Procedure} {call : PendingCall g} {pending : List (PendingCall g)}
    {rest : List (Frame g)}
    (onTop : s.stack = { procedure := p, pending := call :: pending } :: rest) :
    start.program.Knows call.target :=
  (ready.frames _ (onTop ▸ List.mem_cons_self)).2.2 call List.mem_cons_self

omit reliable in
theorem finish {p : Procedure} {rest : List (Frame g)}
    (onTop : s.stack = { procedure := p, pending := [] } :: rest) :
    Ready start { s with stack := rest } ∧
      Progress.Step start.program (.ofPropagation s) (.ofPropagation { s with stack := rest }) := by
  refine ⟨{ ready with frames := fun frame inRest => ?_ }, .finish onTop⟩
  exact ready.frames frame (onTop ▸ List.mem_cons_of_mem _ inRest)

theorem fold {p : Procedure} {call : PendingCall g} {pending : List (PendingCall g)}
    {rest : List (Frame g)}
    (onTop : s.stack = { procedure := p, pending := call :: pending } :: rest)
    (isReady : call.target.signature ∈ s.resolved ∨ ¬ start.program.Counts call.target) :
    let t : Propagation g :=
      { s with costs := foldCall p call s.costs, stack := { procedure := p, pending } :: rest }
    Ready start t ∧ Progress.Step start.program (.ofPropagation s) (.ofPropagation t) := by
  obtain ⟨known, isResolved, targetsKnown⟩ := ready.frames _ (onTop ▸ List.mem_cons_self)
  obtain ⟨targetKnown, restKnown⟩ := List.forall_mem_cons.mp targetsKnown
  obtain ⟨own, found⟩ := Option.isSome_iff_exists.mp ((ready.recorded p.signature).mpr isResolved)
  obtain ⟨callee, i, external, offered, folded, later, -, zero, -⟩ :=
    ready.foldCall_spec reliable targetKnown found isReady
  constructor
  · refine ⟨?_, ?_, ?_, ?_, ?_, ready.counts, ?_⟩
    all_goals simp only [folded]
    · exact ready.later.trans later
    · exact ready.locals
    · exact ready.onlyLocals
    · exact zero
    · intro signature
      rw [← ready.recorded signature]
      simp only [CostStore.put, OrderedMap.get?_insert]
      split
      · rename_i same
        simp [← same, found]
      · rfl
    · intro frame inStack
      rcases List.mem_cons.mp inStack with rfl | inRest
      · exact ⟨known, isResolved, restKnown⟩
      · exact ready.frames frame (onTop ▸ List.mem_cons_of_mem _ inRest)
  · have step := Progress.Step.fold (s := .ofPropagation s) onTop found offered
    have records : (foldCall p call s.costs).store.propagated.get? = fun other =>
        if p.signature = other then some (own.absorb callee call.depth)
        else s.costs.store.propagated.get? other := by
      funext other
      simp only [folded, CostStore.put, OrderedMap.get?_insert]
    simpa only [Progress.ofPropagation, Progress.write, records] using step

theorem enter (fits : g.Fits start.program) {p : Procedure} (known : start.program.Knows p)
    (counts : start.program.Counts p) (isNew : p.signature ∉ s.resolved) (due : s.Due start p) :
    let t : Propagation g :=
      { costs := (Propagation.enter (g := g) p s.costs).1
        resolved := p.signature :: s.resolved
        stack := (Propagation.enter p s.costs).2 ++ s.stack }
    Ready start t ∧ Progress.Step start.program (.ofPropagation s) (.ofPropagation t) := by
  have counted : p.body.isSome → s.costs.store.locals.get? p.signature = some p.localRecord :=
    fun hasBody => ready.locals p
      (reliable.coherent.mem_applicationProcedures reliable.named known counts hasBody)
  obtain ⟨i, entered, later, -⟩ := enter_spec (g := g) (ready.reliableNow reliable)
    (ready.later.program.knows known) counted
  simp only [entered]
  constructor
  · refine ⟨ready.later.trans later, ready.locals, ready.onlyLocals, ready.external, ?_, ?_, ?_⟩
    · intro signature
      rw [List.mem_cons, ← ready.recorded signature]
      simp only [CostStore.put, OrderedMap.get?_insert]
      by_cases same : p.signature = signature
      · simp [same]
      · simp [same, Ne.symm same]
    · intro q qKnown isResolved
      rcases List.mem_cons.mp isResolved with same | old
      · exact known.eq qKnown same.symm ▸ counts
      · exact ready.counts qKnown old
    · intro frame inStack
      rcases List.mem_cons.mp inStack with rfl | inRest
      · refine ⟨known, List.mem_cons_self, fun call isCall => ?_⟩
        obtain ⟨position, -, e, leaves, -, target⟩ := Procedure.mem_calls isCall
        rw [target]
        exact fits.knows e (fits.indexed.mem_edgesOutOf.mp leaves).1
      · obtain ⟨frameKnown, isResolved, targetsKnown⟩ := ready.frames frame inRest
        exact ⟨frameKnown, List.mem_cons_of_mem _ isResolved, targetsKnown⟩
  · have step := Progress.Step.enter (s := .ofPropagation s) known counts isNew
      (due.imp_left And.left)
    have records : (s.costs.store.put p.signature p.localRecord).propagated.get? = fun other =>
        if p.signature = other then some p.localRecord
        else s.costs.store.propagated.get? other := by
      funext other
      simp only [CostStore.put, OrderedMap.get?_insert]
    simpa only [Progress.ofPropagation, Progress.write, records, List.cons_append,
      List.nil_append] using step

theorem move (fits : g.Fits start.program) {t : Propagation g} (move : Move start s t) :
    Ready start t ∧ Progress.Step start.program (.ofPropagation s) (.ofPropagation t) := by
  cases move with
  | finish onTop => exact ready.finish onTop
  | fold onTop isReady => exact ready.fold reliable onTop isReady
  | enter known counts isNew due => exact ready.enter reliable fits known counts isNew due

theorem moves (fits : g.Fits start.program) {t : Propagation g}
    (moves : Relation.ReflTransGen (Move start) s t) :
    Ready start t ∧
      Relation.ReflTransGen (Progress.Step start.program) (.ofPropagation s) (.ofPropagation t) := by
  induction moves with
  | refl => exact ⟨ready, .refl⟩
  | tail _ move ih =>
      obtain ⟨readyNext, step⟩ := ih.1.move reliable fits move
      exact ⟨readyNext, ih.2.tail step⟩

end Ready

/-! ## Whole runs -/

theorem Move.resolved_subset {start : Inspection} {s t : Propagation g} (move : Move start s t) :
    s.resolved ⊆ t.resolved := by
  cases move with
  | enter => exact List.subset_cons_self _ _
  | fold | finish => exact List.Subset.refl _

theorem resolved_subset_of_moves {start : Inspection} {s t : Propagation g}
    (moves : Relation.ReflTransGen (Move start) s t) : s.resolved ⊆ t.resolved := by
  induction moves with
  | refl => exact List.Subset.refl _
  | tail _ move ih => exact List.Subset.trans ih move.resolved_subset

theorem Ready.drain {start : Inspection} (reliable : start.Reliable) (fits : g.Fits start.program)
    {s : Propagation g} (ready : Ready start s) :
    s.drain.stack = [] ∧ Relation.ReflTransGen (Move start) s s.drain := by
  fun_induction Propagation.drain s with
  | case1 s idle => exact ⟨idle, .refl⟩
  | case2 s p rest onTop ih =>
      have move : Move start s { s with stack := rest } := .finish onTop
      obtain ⟨idle, moves⟩ := ih (ready.move reliable fits move).1
      exact ⟨idle, .head move moves⟩
  | case3 s p call pending rest onTop target done isResolved ih =>
      have move : Move start s (done (foldCall p call s.costs)) := .fold onTop (.inl isResolved)
      obtain ⟨idle, moves⟩ := ih (ready.move reliable fits move).1
      exact ⟨idle, .head move moves⟩
  | case4 s p call pending rest onTop target done isNew fault unclear ih =>
      -- A known procedure can always be classified.
      have known := ready.targetKnown onTop
      cases (ready.isApplication_eq reliable known).symm.trans unclear
  | case5 s p call pending rest onTop target done isNew isLibrary ih =>
      have known := ready.targetKnown onTop
      have isLibrary := Except.ok.inj ((ready.isApplication_eq reliable known).symm.trans isLibrary)
      have move : Move start s (done (foldCall p call s.costs)) :=
        .fold onTop (.inr (Bool.eq_false_iff.mp isLibrary))
      obtain ⟨idle, moves⟩ := ih (ready.move reliable fits move).1
      exact ⟨idle, .head move moves⟩
  | case6 s p call pending rest onTop target isNew isApplication costs frames entered ih =>
      have known := ready.targetKnown onTop
      have counts := Except.ok.inj ((ready.isApplication_eq reliable known).symm.trans isApplication)
      have move := Move.enter known counts isNew (.inr ⟨p, call, pending, rest, onTop, rfl⟩)
      rw [onTop, entered] at move
      obtain ⟨idle, moves⟩ := ih (ready.move reliable fits move).1
      exact ⟨idle, .head move moves⟩

theorem Ready.visit {start : Inspection} (reliable : start.Reliable) (fits : g.Fits start.program)
    {s : Propagation g} (ready : Ready start s) (idle : s.stack = []) {p : Procedure}
    (listed : p ∈ start.program.applicationProcedures) :
    (s.visit p).stack = [] ∧ Relation.ReflTransGen (Move start) s (s.visit p) ∧
      p.signature ∈ (s.visit p).resolved := by
  unfold Propagation.visit
  split
  · rename_i isResolved
    exact ⟨idle, .refl, isResolved⟩
  · rename_i isNew
    obtain ⟨known, counts⟩ := reliable.coherent.knows_of_application reliable.named listed
    have move := Move.enter known counts isNew (.inl ⟨idle, listed⟩)
    obtain ⟨idle, moves⟩ := (ready.move reliable fits move).1.drain reliable fits
    exact ⟨idle, .head move moves, resolved_subset_of_moves moves List.mem_cons_self⟩

theorem Ready.visitAll {start : Inspection} (reliable : start.Reliable)
    (fits : g.Fits start.program) {roots : List Procedure} {s : Propagation g}
    (ready : Ready start s) (idle : s.stack = [])
    (listed : roots ⊆ start.program.applicationProcedures) :
    (roots.foldl Propagation.visit s).stack = [] ∧
      Relation.ReflTransGen (Move start) s (roots.foldl Propagation.visit s) ∧
      ∀ p ∈ roots, p.signature ∈ (roots.foldl Propagation.visit s).resolved := by
  induction roots generalizing s with
  | nil => exact ⟨idle, .refl, by simp⟩
  | cons root rest ih =>
      obtain ⟨rootListed, restListed⟩ := List.cons_subset.mp listed
      obtain ⟨idleNext, moves, isResolved⟩ := ready.visit reliable fits idle rootListed
      obtain ⟨idleFinal, movesRest, restResolved⟩ :=
        ih (ready.moves reliable fits moves).1 idleNext restListed
      refine ⟨idleFinal, moves.trans movesRest, fun p isRoot => ?_⟩
      rcases List.mem_cons.mp isRoot with rfl | inRest
      · exact resolved_subset_of_moves movesRest isResolved
      · exact restResolved p inRest

/-- A propagation of counted costs before its first move. -/
def begun (g : CallGraph) (counted : Costs) : Propagation g where
  costs := noting (·.info .propagation "Propagating invocations through the call graph") counted

theorem ready_begun {start : Inspection} {counted : Costs} (done : Counted start counted) :
    Ready start (begun g counted) where
  later := done.later.trans (.of_eq rfl rfl)
  locals := done.locals
  onlyLocals := done.only
  external := fun {signature r} found => by
    rw [show (begun g counted).costs.store.external = .empty from done.noneExternal] at found
    cases found
  recorded := fun signature => by
    rw [show (begun g counted).costs.store.propagated = .empty from done.nonePropagated]
    simp [begun]
  counts := fun _ isResolved => by cases isResolved
  frames := fun _ inStack => by cases inStack

/-- A run over counted costs gets by moves to a state in which nothing is unfinished and all application
    procedures are resolved. After that it only writes a log line. -/
theorem run_moves {start : Inspection} (reliable : start.Reliable) (fits : g.Fits start.program)
    {counted : Costs} (done : Counted start counted) :
    ∃ final, Relation.ReflTransGen (Move start) (begun g counted) final ∧ final.stack = [] ∧
      (∀ p ∈ start.program.applicationProcedures, p.signature ∈ final.resolved) ∧
      run g counted = { final with
        costs := noting (·.info .propagation s!"Resolved {final.resolved.length} procedures")
          final.costs } := by
  have ready := ready_begun (g := g) done
  have roots : (begun g counted).costs.inspection.program.applicationProcedures =
      start.program.applicationProcedures := ready.later.program.applicationProcedures
  obtain ⟨idle, moves, resolved⟩ := ready.visitAll reliable fits rfl (List.Subset.refl _)
  refine ⟨_, moves, idle, resolved, ?_⟩
  rw [← roots]
  rfl

theorem ofPropagation_begun {start : Inspection} {counted : Costs} (done : Counted start counted) :
    Progress.ofPropagation (begun g counted) = .none := by
  simp only [Progress.none, Progress.ofPropagation]
  rw [show (begun g counted).costs.store.propagated = .empty from done.nonePropagated]
  rfl

/-- A run over counted costs gets by steps from nothing to a state in which nothing is unfinished and
    all application procedures are resolved. -/
theorem run_steps {start : Inspection} (reliable : start.Reliable) (fits : g.Fits start.program)
    {counted : Costs} (done : Counted start counted) :
    Relation.ReflTransGen (Progress.Step start.program) .none (.ofPropagation (run g counted)) ∧
      (run g counted).stack = [] ∧
      ∀ p ∈ start.program.applicationProcedures, p.signature ∈ (run g counted).resolved := by
  obtain ⟨final, moves, idle, resolved, ends⟩ := run_moves reliable fits done
  have steps := ((ready_begun done).moves reliable fits moves).2
  rw [ofPropagation_begun done] at steps
  rw [ends]
  exact ⟨steps, idle, resolved⟩

end Propagation

end CallWeight
