import CallWeight.Cost.Propagation
import CallWeight.Proofs.Inspections
import CallWeight.Proofs.Lists

/-! # What a procedure costs by itself

A cost record has two counters that differ only in the weight of a call: every call site counts one
for the first, and ten to the power of its loop depth for the second. Whatever is said about a
counter below holds for both.
-/

namespace CallWeight

/-- The counters of a cost record. -/
inductive Counter where
  /-- Call sites. -/
  | static
  /-- Estimated calls. -/
  | approx

namespace Counter

def of : Counter → CostRecord → Int
  | .static, r => r.static
  | .approx, r => r.approx

/-- What one call at a loop depth counts. -/
def weight : Counter → Nat → Nat
  | .static, _ => 1
  | .approx, depth => 10 ^ depth

theorem weight_approx (depth : Nat) : approx.weight depth = loopWeight depth := rfl

theorem of_countCall (c : Counter) (r : CostRecord) (depth : Nat) :
    c.of (r.countCall depth) = c.of r + c.weight depth := by
  cases c with
  | static => simp [of, weight, CostRecord.countCall]
  | approx => simp [of, weight_approx, CostRecord.countCall]

theorem of_absorb (c : Counter) (r callee : CostRecord) (depth : Nat) :
    c.of (r.absorb callee depth) = c.of r + c.weight depth * c.of callee := by
  cases c with
  | static => simp [of, weight, CostRecord.absorb, CostRecord.addWeighted]
  | approx => simp [of, weight_approx, CostRecord.absorb, CostRecord.addWeighted, Int.mul_comm]

end Counter

/-! ## Loop depths -/

section Depths

variable {α : Type} [DecidableEq α]

theorem LoopNest.deepest_of_outside {levels : List (Loop α × Nat)} {statement : α}
    (outside : ∀ entry ∈ levels, entry.1.contains statement = false) :
    deepest levels statement = 0 := by
  unfold deepest
  generalize 0 = depth
  induction levels generalizing depth with
  | nil => rfl
  | cons entry rest ih =>
      obtain ⟨first, others⟩ := List.forall_mem_cons.mp outside
      simp only [List.foldl_cons, first]
      exact ih others depth

theorem LoopNest.map_fst_withLevels (loops : List (Loop α)) :
    (withLevels loops).map (·.1) = loops := by
  induction loops with
  | nil => rfl
  | cons loop rest ih => simp [withLevels, ih]

/-- The listed depths are the depths of all statements, those outside every loop being left out. -/
theorem LoopNest.lookup_depths (nest : LoopNest α) (statement : α) :
    (nest.depths.lookup statement).getD 0 = nest.depthOf statement := by
  unfold depths depthOf
  simp only [lookup_map_pair]
  split
  · rfl
  · rename_i outside
    refine (deepest_of_outside fun entry isLevel => ?_).symm
    have isLoop : entry.1 ∈ nest.loops :=
      map_fst_withLevels nest.loops ▸ List.mem_map_of_mem isLevel
    rw [List.mem_eraseDups, List.mem_flatMap] at outside
    simpa [Loop.contains] using fun inside => outside ⟨entry.1, isLoop, inside⟩

end Depths

namespace Procedure

theorem depthAt_site (p : Procedure) (position : Nat) :
    p.depthMap.depthAt (p.site position) = p.loops.depthOf position := by
  simp [DepthMap.depthAt, depthMap, site, LoopNest.lookup_depths]

/-- The statements of a procedure, none if it has no body. -/
def statements (p : Procedure) : List Statement := p.body.getD []

/-- The positions of the call sites of a procedure. -/
def callSites (p : Procedure) : List Nat :=
  (p.statements.zipIdx.filter (·.1.isCall)).map (·.2)

/-- The local cost of a procedure by one of the counters. -/
def localCount (p : Procedure) (c : Counter) : Nat :=
  (p.callSites.map fun position => c.weight (p.loops.depthOf position)).sum

/-- The local cost of a procedure as it is kept. -/
def localRecord (p : Procedure) : CostRecord :=
  ({ procedure := some p.signature } : CostRecord).ofCalls p.depthMap (p.placed p.statements)

/-- The issue of a procedure that has no body to count calls in. -/
def bodyIssues (p : Procedure) : List Issue :=
  if p.body.isSome then [] else [.ofFailure "extract" (.unresolvableBody p.signature)]

theorem callSites_eq_nil {p : Procedure} (noBody : p.body = none) : p.callSites = [] := by
  simp [callSites, statements, noBody]

end Procedure

theorem Counter.of_ofCalls (c : Counter) (p : Procedure) (r : CostRecord)
    (statements : List (Statement × Nat)) :
    c.of (r.ofCalls p.depthMap (statements.map fun (s, position) => (p.site position, s))) =
      c.of r + (((statements.filter (·.1.isCall)).map fun (_, position) =>
        c.weight (p.loops.depthOf position)).sum : Nat) := by
  induction statements generalizing r with
  | nil => simp [CostRecord.ofCalls]
  | cons entry rest ih =>
      obtain ⟨s, position⟩ := entry
      have others := fun r => ih r
      unfold CostRecord.ofCalls at others ⊢
      by_cases isCall : s.isCall
      · simp only [List.map_cons, List.foldl_cons, isCall, if_true, others, of_countCall,
          Procedure.depthAt_site, List.filter_cons_of_pos, List.sum_cons]
        omega
      · simp only [List.map_cons, List.foldl_cons, isCall, if_false, others, Bool.false_eq_true,
          not_false_eq_true, List.filter_cons_of_neg]

theorem Counter.of_localRecord (c : Counter) (p : Procedure) :
    c.of p.localRecord = p.localCount c := by
  have start : c.of { procedure := some p.signature } = 0 := by cases c <;> rfl
  rw [Procedure.localRecord, Procedure.placed, of_ofCalls, start]
  simp [Procedure.localCount, Procedure.callSites, Function.comp_def]

/-! ## Counting -/

theorem Inspecting.forM_debug (channel : LogChannel) (messages : List Text) (i : Inspection) :
    ∃ j, messages.forM (Inspecting.debug channel) i = .ok () j ∧ i.Later j ∧
      j.issues = i.issues := by
  induction messages generalizing i with
  | nil => exact ⟨i, rfl, .refl i, rfl⟩
  | cons message rest ih =>
      obtain ⟨j, written, later, issues⟩ := ih (i.debug channel message)
      have first : Inspecting.debug channel message i = .ok () (i.debug channel message) := rfl
      have laterFirst : i.Later (i.debug channel message) := .of_eq rfl rfl
      exact ⟨j, (bind_of_ok first).trans written, laterFirst.trans later, issues⟩

theorem CostRecord.extract_of_library {i : Inspection} {p : Procedure}
    (isLibrary : i.isApplication p = .ok false) :
    extract p i = .ok { procedure := some p.signature } i := by
  have asked : Inspecting.ask (·.isApplication p) i = .ok false i := Inspecting.ask_of_ok isLibrary
  exact bind_of_ok asked

namespace Inspection.Reliable

variable {i : Inspection} (reliable : i.Reliable) {p : Procedure} (known : i.program.Knows p)

include reliable known

theorem ofBody : ∃ j, CostRecord.ofBody p i = .ok p.localRecord j ∧ i.Later j ∧
    j.issues = i.issues ++ p.bodyIssues := by
  have asked : Inspecting.ask (·.body p) i = .ok p.body i := Inspecting.ask_of_ok (reliable.body p)
  cases hasBody : p.body with
  | none =>
      rw [hasBody] at asked
      refine ⟨(i.record "extract" (.unresolvableBody p.signature)).debug .counting
        ("No body for " ++ p.signature ++ "; counted as zero"), ?_, .of_eq rfl rfl, ?_⟩
      · refine (bind_of_ok asked).trans ?_
        simp only [Procedure.localRecord, Procedure.statements, hasBody]
        rfl
      · simp only [Procedure.bodyIssues, hasBody]
        rfl
  | some body =>
      rw [hasBody] at asked
      obtain ⟨j, looked, laterLooked, silentLooked⟩ := reliable.depthMap known
      obtain ⟨k, written, laterWritten, silentWritten⟩ := Inspecting.forM_debug .counting
        (CostRecord.callLines p.depthMap (p.placed body)) j
      refine ⟨k, ?_, laterLooked.trans laterWritten, ?_⟩
      · refine (bind_of_ok asked).trans ((bind_of_ok looked).trans ((bind_of_ok written).trans ?_))
        simp only [Procedure.localRecord, Procedure.statements, hasBody]
        rfl
      · simp [Procedure.bodyIssues, hasBody, silentWritten, silentLooked]

theorem extract (isApplication : i.program.config.isApplicationClass p.declaringClass = true) :
    ∃ j, CostRecord.extract p i = .ok p.localRecord j ∧ i.Later j ∧
      j.issues = i.issues ++ p.bodyIssues := by
  have asked : Inspecting.ask (·.isApplication p) i = .ok true i :=
    Inspecting.ask_of_ok (isApplication ▸ reliable.isApplication known)
  let told := i.debug .counting ("Collecting invocations for " ++ p.signature)
  have laterTold : i.Later told := .of_eq rfl rfl
  obtain ⟨j, counted, laterCounted, issues⟩ :=
    (reliable.later laterTold).ofBody (laterTold.program.knows known)
  refine ⟨j, ?_, laterTold.trans laterCounted, issues⟩
  have attempted : (CostRecord.ofBody p).attempt told = (.ok p.localRecord, j) :=
    Inspecting.attempt_of_ok counted
  have tells : Inspecting.debug .counting ("Collecting invocations for " ++ p.signature) i =
      .ok () told := rfl
  refine (bind_of_ok asked).trans ((bind_of_ok tells).trans
    (bind_of_ok (a := Except.ok p.localRecord) (t := j) ?_))
  simp only [attempted]

theorem extract_library
    (isLibrary : i.program.config.isApplicationClass p.declaringClass = false) :
    CostRecord.extract p i = .ok { procedure := some p.signature } i :=
  CostRecord.extract_of_library (isLibrary ▸ reliable.isApplication known)

end Inspection.Reliable

/-- What is kept once the calls of all application procedures are counted. -/
structure Counted (start : Inspection) (counted : Costs) : Prop where
  later : start.Later counted.inspection
  locals : ∀ p ∈ start.program.applicationProcedures,
    counted.store.locals.get? p.signature = some p.localRecord
  only : ∀ {signature r}, counted.store.locals.get? signature = some r →
    ∃ p ∈ start.program.applicationProcedures, p.signature = signature
  nonePropagated : counted.store.propagated = .empty
  noneExternal : counted.store.external = .empty
  issues : counted.inspection.issues =
    start.issues ++ start.program.applicationProcedures.flatMap (·.bodyIssues)

namespace Costing

/-- The local partition after the costs of some procedures were filed. -/
def fileLocals (locals : OrderedMap Text CostRecord) (procedures : List Procedure) :
    OrderedMap Text CostRecord :=
  procedures.foldl (fun locals p => locals.insert p.signature p.localRecord) locals

theorem get?_fileLocals {locals : OrderedMap Text CostRecord} {procedures : List Procedure}
    {signature : Text} {r : CostRecord}
    (found : (fileLocals locals procedures).get? signature = some r) :
    (∃ p ∈ procedures, p.signature = signature ∧ r = p.localRecord) ∨
      locals.get? signature = some r := by
  induction procedures generalizing locals with
  | nil => exact .inr found
  | cons p rest ih =>
      rcases ih found with ⟨q, inRest, about⟩ | before
      · exact .inl ⟨q, List.mem_cons_of_mem _ inRest, about⟩
      · rw [OrderedMap.get?_insert] at before
        split at before
        · rename_i same
          cases before
          exact .inl ⟨p, List.mem_cons_self, same, rfl⟩
        · exact .inr before

theorem isSome_get?_fileLocals (locals : OrderedMap Text CostRecord)
    {procedures : List Procedure} {signature : Text}
    (filed : (locals.get? signature).isSome ∨ ∃ p ∈ procedures, p.signature = signature) :
    ((fileLocals locals procedures).get? signature).isSome := by
  induction procedures generalizing locals with
  | nil => simpa [fileLocals] using filed
  | cons p rest ih =>
      refine ih (locals.insert p.signature p.localRecord) ?_
      rw [OrderedMap.get?_insert]
      rcases filed with before | ⟨q, listed, rfl⟩
      · by_cases same : p.signature = signature <;> simp [same, before]
      · rcases List.mem_cons.mp listed with rfl | inRest
        · simp
        · exact .inr ⟨q, inRest, rfl⟩

theorem extractFrom_spec {start : Inspection} (reliable : start.Reliable)
    {procedures : List Procedure} (count : Nat) (costs : Costs)
    (application : ∀ p ∈ procedures, start.program.Knows p ∧
      start.program.config.isApplicationClass p.declaringClass = true)
    (later : start.Later costs.inspection) :
    ∃ total i, extractFrom count procedures costs = .ok total
        { inspection := i
          store := { costs.store with locals := fileLocals costs.store.locals procedures } } ∧
      start.Later i ∧ i.issues = costs.inspection.issues ++ procedures.flatMap (·.bodyIssues) := by
  induction procedures generalizing count costs with
  | nil => exact ⟨count, costs.inspection, rfl, later, by simp⟩
  | cons p rest ih =>
      obtain ⟨⟨known, isApplication⟩, others⟩ := List.forall_mem_cons.mp application
      have reliableNow := reliable.later later
      have knownNow := later.program.knows known
      rw [← later.program.config] at isApplication
      obtain ⟨j, extracted, laterExtracted, issues⟩ := reliableNow.extract knownNow isApplication
      have asked : Inspecting.ask (·.isApplication p) costs.inspection =
          .ok true costs.inspection :=
        Inspecting.ask_of_ok (isApplication ▸ reliableNow.isApplication knownNow)
      let filed : Costs :=
        { inspection := j, store := costs.store.putLocal p.signature p.localRecord }
      obtain ⟨total, i, counted, laterCounted, issuesRest⟩ :=
        ih (count + 1) filed others (later.trans laterExtracted)
      have allIssues : i.issues = costs.inspection.issues ++ (p :: rest).flatMap (·.bodyIssues) := by
        rw [issuesRest, issues, List.flatMap_cons, List.append_assoc]
      refine ⟨total, i, ?_, laterCounted, allIssues⟩
      have registered : modifyStore (·.putLocal p.signature p.localRecord)
          { costs with inspection := j } = .ok () filed := rfl
      exact (bind_of_ok (inspect_of_ok asked)).trans ((bind_of_ok (inspect_of_ok extracted)).trans
        ((bind_of_ok registered).trans counted))

end Costing

theorem Costing.extractAll_spec {start : Inspection} (reliable : start.Reliable) :
    ∃ count counted, extractAll start.program.applicationProcedures { inspection := start } =
        .ok count counted ∧
      Counted start counted := by
  have application := fun p listed =>
    reliable.coherent.knows_of_application reliable.named (p := p) listed
  obtain ⟨total, i, extracted, later, issues⟩ :=
    extractFrom_spec reliable 0 { inspection := start } application (.refl _)
  refine ⟨_, _, bind_of_ok extracted, ?_⟩
  refine ⟨later.trans (.of_eq rfl rfl), fun p listed => ?_, fun found => ?_, rfl, rfl, issues⟩
  · have isSome := isSome_get?_fileLocals .empty (.inr ⟨p, listed, rfl⟩)
    obtain ⟨r, found⟩ := Option.isSome_iff_exists.mp isSome
    rcases get?_fileLocals found with ⟨q, qListed, same, rfl⟩ | before
    · rwa [(application q qListed).1.eq (application p listed).1 same] at found
    · cases before
  · rcases get?_fileLocals found with ⟨p, listed, same, -⟩ | before
    · exact ⟨p, listed, same⟩
    · cases before

end CallWeight
