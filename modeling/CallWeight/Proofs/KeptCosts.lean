import CallWeight.Proofs.BatchRuns
import CallWeight.Proofs.PropagationEvents

/-! # What a propagation keeps

Whatever fails, a propagation adds to what is known and replaces little of it. What is counted for a
signature or computed as its depth map is never replaced. Propagated records are written only while the
turn of their signature lasts, so the record of a signature is closed once the signature is resolved and
has no frame on the stack. If signatures tell library code from application code, the records of library
code are closed from the beginning.
-/

namespace CallWeight

/-! ## What is counted stays -/

namespace CostStore

/-- The record that was counted for a procedure itself. -/
def counted? (store : CostStore) (signature : Text) : Option CostRecord :=
  (store.locals.get? signature).or (store.external.get? signature)

variable {store : CostStore} {signature : Text}

theorem counted?_putLocal (r : CostRecord) (other : Text) :
    (store.putLocal signature r).counted? other =
      if signature = other then some r else store.counted? other := by
  simp only [counted?, putLocal, OrderedMap.get?_insert]
  split <;> rfl

theorem counted?_putExternal (isNew : store.counted? signature = none) (r : CostRecord)
    (other : Text) :
    (store.putExternal signature r).counted? other =
      if signature = other then some r else store.counted? other := by
  simp only [counted?, putExternal, OrderedMap.get?_insert]
  split
  · rename_i same
    have noLocal : store.locals.get? other = none := (Option.or_eq_none_iff.mp (same ▸ isNew)).1
    rw [noLocal, Option.none_or]
  · rfl

end CostStore

/-- Whether nothing that was counted or computed is lost, and nothing is counted for signatures without a
    status. -/
structure Costs.Extends (status : Text → Option Bool) (before after : Costs) : Prop where
  recalls : before.inspection.Recalls after.inspection
  counted : ∀ {signature r}, before.store.counted? signature = some r →
    after.store.counted? signature = some r
  uncounted : ∀ {signature}, status signature = none → before.store.counted? signature = none →
    after.store.counted? signature = none

namespace Costs.Extends

variable {status : Text → Option Bool} {first second third : Costs}

theorem trans (early : first.Extends status second) (late : second.Extends status third) :
    first.Extends status third where
  recalls := early.recalls.trans late.recalls
  counted found := late.counted (early.counted found)
  uncounted unclear none := late.uncounted unclear (early.uncounted unclear none)

theorem of_eq (recalls : first.inspection.Recalls second.inspection)
    (locals : second.store.locals = first.store.locals)
    (external : second.store.external = first.store.external) : first.Extends status second where
  recalls
  counted found := by simpa only [CostStore.counted?, locals, external] using found
  uncounted _ none := by simpa only [CostStore.counted?, locals, external] using none

theorem of_store (recalls : first.inspection.Recalls second.inspection)
    (store : second.store = first.store) : first.Extends status second :=
  .of_eq recalls (by rw [store]) (by rw [store])

theorem refl (costs : Costs) : costs.Extends status costs := .of_store (.refl _) rfl

end Costs.Extends

namespace Costing

/-- What looking for the record of a procedure does, if `prior` is a record that is better than what is
    counted: it is there, or it is counted now, or it cannot be told what to count. -/
inductive Lookup (p : Procedure) (prior : Option CostRecord) (costs : Costs) :
    EStateM.Result Fault Costs CostRecord → Prop
  | found {r : CostRecord} (held : prior.or (costs.store.counted? p.signature) = some r) :
      Lookup p prior costs (.ok r costs)
  | counts {answer : Bool} {r : CostRecord} {after : Costs} (noPrior : prior = none)
      (isNew : costs.store.counted? p.signature = none)
      (answered : costs.inspection.isApplication p = .ok answer)
      (recalls : costs.inspection.Recalls after.inspection)
      (propagated : after.store.propagated = costs.store.propagated)
      (filed : ∀ other, after.store.counted? other =
        if p.signature = other then some r else costs.store.counted? other) :
      Lookup p prior costs (.ok r after)
  | fails {fault : Fault} (noPrior : prior = none)
      (isNew : costs.store.counted? p.signature = none)
      (refused : costs.inspection.isApplication p = .error fault) :
      Lookup p prior costs (.error fault costs)

theorem lookup_localCost (p : Procedure) (costs : Costs) :
    Lookup p none costs (localCost p costs) := by
  have started : (get : Costing Costs) costs = .ok costs costs := rfl
  unfold localCost
  rw [bind_of_ok started]
  cases held : (costs.store.locals.get? p.signature).or
      (costs.store.external.get? p.signature) with
  | some r => exact .found held
  | none =>
      cases answered : costs.inspection.isApplication p with
      | error fault =>
          have failed := inspect_of_error (CostRecord.extract_of_error answered)
          dsimp only
          rw [bind_of_error failed]
          exact .fails rfl held answered
      | ok answer =>
          obtain ⟨r, i, extracted, recalls⟩ := CostRecord.extract_returns answered
          dsimp only
          rw [bind_of_ok (inspect_of_ok extracted)]
          exact .counts rfl held answered recalls rfl (CostStore.counted?_putLocal r)

theorem cost_of_refused {p : Procedure} {costs : Costs} {fault : Fault}
    (refused : costs.inspection.failure? .cost (.text p.signature) = some fault) :
    cost p costs = .error fault costs := by
  refine bind_of_error (inspect_of_error (Inspecting.ask_of_error ?_))
  simp only [Inspection.answer, refused]

theorem lookup_cost {p : Procedure} {costs : Costs}
    (asked : costs.inspection.failure? .cost (.text p.signature) = none) :
    Lookup p (costs.store.propagated.get? p.signature) costs (cost p costs) := by
  have answers : inspect (Inspecting.ask fun i => i.answer .cost (.text p.signature) (.ok ())) costs =
      .ok () costs :=
    inspect_of_ok (Inspecting.ask_of_ok (Inspection.answer_eq_ok.mpr ⟨asked, rfl⟩))
  have started : (get : Costing Costs) costs = .ok costs costs := rfl
  unfold cost
  rw [bind_of_ok answers, bind_of_ok started]
  cases held : costs.store.best? p.signature with
  | some r => exact .found held
  | none =>
      obtain ⟨noPrior, isNew⟩ := Option.or_eq_none_iff.mp held
      cases answered : costs.inspection.isApplication p with
      | error fault =>
          have failed := inspect_of_error (CostRecord.extract_of_error answered)
          dsimp only
          rw [bind_of_error failed]
          exact .fails noPrior isNew answered
      | ok answer =>
          obtain ⟨r, i, extracted, recalls⟩ := CostRecord.extract_returns answered
          dsimp only
          rw [bind_of_ok (inspect_of_ok extracted)]
          exact .counts noPrior isNew answered (recalls.trans (.of_eq rfl rfl)) rfl
            (CostStore.counted?_putExternal isNew r)

namespace Lookup

variable {status : Text → Option Bool} {p : Procedure} {prior : Option CostRecord}
  {costs after final again : Costs} {r : CostRecord} {fault : Fault}
  {result : EStateM.Result Fault Costs CostRecord}

theorem extends_ok (lookup : Lookup p prior costs (.ok r after))
    (judged : (costs.inspection.isApplication p).toOption = status p.signature) :
    costs.Extends status after := by
  cases lookup with
  | found held => exact .refl _
  | counts noPrior isNew answered recalls propagated filed =>
      rw [answered] at judged
      refine ⟨recalls, fun {signature old} found => ?_, fun {signature} unclear none => ?_⟩
      · have other : p.signature ≠ signature := fun same => by simp [← same, isNew] at found
        rw [filed, if_neg other, found]
      · have other : p.signature ≠ signature := fun same => by
          rw [same, unclear] at judged
          cases judged
        rw [filed, if_neg other, none]

theorem propagated_ok (lookup : Lookup p prior costs (.ok r after)) :
    after.store.propagated = costs.store.propagated := by
  cases lookup with
  | found held => rfl
  | counts noPrior isNew answered recalls propagated filed => exact propagated

theorem state_error (lookup : Lookup p prior costs (.error fault after)) : after = costs := by
  cases lookup with
  | fails noPrior isNew refused => rfl

/-- What was found or counted once is found later, if nothing that was counted is lost meanwhile. -/
theorem again_ok (lookup : Lookup p prior costs (.ok r after)) (kept : after.Extends status final)
    (same : again.store.counted? p.signature = final.store.counted? p.signature)
    (second : Lookup p prior again result) : result = .ok r again := by
  have held : prior.or (again.store.counted? p.signature) = some r := by
    rw [same]
    cases lookup with
    | found held =>
        cases prior with
        | some best => exact held
        | none => exact kept.counted held
    | counts noPrior isNew answered recalls propagated filed =>
        rw [noPrior]
        exact kept.counted ((filed p.signature).trans (if_pos rfl))
  cases second with
  | found heldAgain => rw [held] at heldAgain; cases heldAgain; rfl
  | counts noPrior isNew => simp [noPrior, isNew] at held
  | fails noPrior isNew => simp [noPrior, isNew] at held

/-- What could not be counted once cannot be counted later. -/
theorem again_error (lookup : Lookup p prior costs (.error fault after))
    (judged : (costs.inspection.isApplication p).toOption = status p.signature)
    (kept : costs.Extends status final) (alike : costs.inspection.Alike again.inspection)
    (same : again.store.counted? p.signature = final.store.counted? p.signature)
    (second : Lookup p prior again result) : result = .error fault again := by
  cases lookup with
  | fails noPrior isNew refused =>
      have unclear : status p.signature = none := by rw [← judged, refused]; rfl
      have isNewAgain := same.trans (kept.uncounted unclear isNew)
      cases second with
      | found held => simp [noPrior, isNewAgain] at held
      | counts _ _ answered => cases (alike.isApplication p ▸ answered).symm.trans refused
      | fails _ _ refusedAgain =>
          cases (alike.isApplication p ▸ refusedAgain).symm.trans refused
          rfl

end Lookup

end Costing

/-! ## What a propagation leaves alone -/

/-- Whether propagated records are written under one signature at most, and none is taken away. -/
structure Costs.Writes (status : Text → Option Bool) (signature : Text) (before after : Costs) : Prop
    extends before.Extends status after where
  others : ∀ {other}, signature ≠ other →
    after.store.propagated.get? other = before.store.propagated.get? other
  kept : (before.store.propagated.get? signature).isSome →
    (after.store.propagated.get? signature).isSome

namespace Costs.Writes

variable {status : Text → Option Bool} {signature : Text} {first second third : Costs}

theorem trans (early : first.Writes status signature second)
    (late : second.Writes status signature third) : first.Writes status signature third where
  toExtends := early.toExtends.trans late.toExtends
  others other := (late.others other).trans (early.others other)
  kept isSome := late.kept (early.kept isSome)

theorem of_eq (extended : first.Extends status second)
    (propagated : second.store.propagated = first.store.propagated) :
    first.Writes status signature second where
  toExtends := extended
  others _ := by rw [propagated]
  kept isSome := by rwa [propagated]

theorem of_store (recalls : first.inspection.Recalls second.inspection)
    (store : second.store = first.store) : first.Writes status signature second :=
  .of_eq (.of_store recalls store) (by rw [store])

theorem put (costs : Costs) (signature : Text) (r : CostRecord) :
    costs.Writes status signature { costs with store := costs.store.put signature r } where
  toExtends := .of_eq (.refl _) rfl rfl
  others other := (OrderedMap.get?_insert ..).trans (if_neg other)
  kept _ := by simp [CostStore.put, OrderedMap.get?_insert]

end Costs.Writes

namespace Propagation

variable {g : CallGraph} {status : Text → Option Bool}

theorem recalls_of_depthMap {p : Procedure} {costs after : Costs} {depths : DepthMap}
    (looked : Costing.inspect (Inspecting.depthMap p) costs = .ok depths after) :
    costs.inspection.Recalls after.inspection ∧ after.store = costs.store := by
  rw [inspect_depthMap] at looked
  cases refused : costs.inspection.failure? .depths (.text p.signature) with
  | some fault => simp [refused] at looked
  | none =>
      simp only [refused] at looked
      cases looked
      exact ⟨⟨⟨rfl, Program.alike_depthMap _ p⟩, Program.depthCache_depthMap _ p⟩, rfl⟩

theorem state_of_depthMap {p : Procedure} {costs after : Costs} {fault : Fault}
    (failed : Costing.inspect (Inspecting.depthMap p) costs = .error fault after) :
    after = costs := by
  rw [inspect_depthMap] at failed
  cases refused : costs.inspection.failure? .depths (.text p.signature) with
  | none => simp [refused] at failed
  | some other =>
      simp only [refused] at failed
      cases failed
      rfl

theorem writes_enter {p : Procedure} {costs : Costs}
    (judged : (costs.inspection.isApplication p).toOption = status p.signature) :
    costs.Writes status p.signature (enter (g := g) p costs).1 := by
  have counting {r : CostRecord} {seeded : Costs}
      (counted : Costing.localCost p costs = .ok r seeded) :
      costs.Writes status p.signature { seeded with store := seeded.store.put p.signature r } := by
    have lookup := counted ▸ Costing.lookup_localCost p costs
    exact (Costs.Writes.of_eq (lookup.extends_ok judged) lookup.propagated_ok).trans (.put _ _ _)
  have stops (fault : Fault) (before : Costs) :
      before.Writes status p.signature (recordFailure p fault before) := .of_store (.of_eq rfl rfl) rfl
  rcases enter_happens g p costs with ⟨calls, after, entered, happens, -⟩ |
    ⟨fault, after, entered, happens⟩
  · rw [entered]
    cases happens with
    | leaf noBody =>
        exact (Costs.Writes.put _ _ _).trans (.of_store (.of_eq rfl rfl) rfl)
    | began hasBody counted looked =>
        obtain ⟨recalls, store⟩ := recalls_of_depthMap looked
        exact (counting counted).trans (.of_store recalls store)
  · rw [entered]
    cases happens with
    | bodyFails fails => exact stops _ _
    | countFails hasBody fails =>
        have lookup := fails ▸ Costing.lookup_localCost p costs
        rw [lookup.state_error]
        exact stops _ _
    | depthsFail hasBody counted fails =>
        rw [state_of_depthMap fails]
        exact (counting counted).trans (stops _ _)

theorem writes_foldCall (p : Procedure) {call : PendingCall g} {costs : Costs}
    (judged : (costs.inspection.isApplication call.target).toOption = status call.target.signature) :
    costs.Writes status p.signature (foldCall p call costs) := by
  have skips (fault : Fault) : costs.Writes status p.signature (recordSkipped p call fault costs) :=
    .of_store (.of_eq rfl rfl) rfl
  unfold foldCall
  cases asked : costs.inspection.failure? .cost (.text call.target.signature) with
  | some fault =>
      rw [Costing.cost_of_refused asked]
      exact skips fault
  | none =>
      have lookup := Costing.lookup_cost asked
      cases priced : Costing.cost call.target costs with
      | error fault after =>
          rw [priced] at lookup
          exact lookup.state_error ▸ skips fault
      | ok callee after =>
          rw [priced] at lookup
          exact (Costs.Writes.of_eq (lookup.extends_ok judged) lookup.propagated_ok).trans
            ((Costs.Writes.put _ _ _).trans (.of_store (.of_eq rfl rfl) rfl))

/-- The calls of a turn that begins lead where edges lead. -/
theorem enter_frames {p : Procedure} {costs : Costs} {frame : Frame g}
    (isNew : frame ∈ (enter p costs).2) : frame.procedure = p ∧
      ∀ call ∈ frame.pending, ∃ site, ∃ e ∈ g.edgesOutOf site, e.target = call.target := by
  rcases enter_happens g p costs with ⟨calls, after, entered, happens, -⟩ |
    ⟨fault, after, entered, happens⟩
  · rw [entered] at isNew
    cases List.mem_singleton.mp isNew
    refine ⟨rfl, fun call isCall => ?_⟩
    cases happens with
    | leaf noBody => cases isCall
    | began hasBody counted looked =>
        obtain ⟨⟨site, s⟩, isPlaced, isCall⟩ := List.mem_flatMap.mp isCall
        by_cases calls : s.isCall
        · simp only [callsAt, calls, if_true] at isCall
          obtain ⟨⟨e, leaves⟩, -, rfl⟩ := List.mem_map.mp isCall
          exact ⟨site, e, leaves, rfl⟩
        · simp [callsAt, calls] at isCall
  · rw [entered] at isNew
    cases isNew

/-- Whether a status for every signature says what is found out about the procedures that a propagation
    can come to, and none of those that it starts from is library code. -/
structure Judges (g : CallGraph) (start : Inspection) (status : Text → Option Bool) : Prop where
  targets : ∀ {site e}, e ∈ g.edgesOutOf site →
    (start.isApplication e.target).toOption = status e.target.signature
  roots : ∀ {p}, p ∈ start.program.applicationProcedures →
    (start.isApplication p).toOption = status p.signature
  application : ∀ {p}, p ∈ start.program.applicationProcedures → status p.signature ≠ some false

/-- What holds of a propagation at every moment, whatever fails. -/
structure Tended (start : Inspection) (status : Text → Option Bool) (s : Propagation g) : Prop where
  alike : start.Alike s.costs.inspection
  resolved : ∀ frame ∈ s.stack, frame.procedure.signature ∈ s.resolved
  judged : ∀ frame ∈ s.stack, ∀ call ∈ frame.pending,
    (start.isApplication call.target).toOption = status call.target.signature

/-- Whether a propagation has nothing to write under a signature any more. -/
structure Closed (status : Text → Option Bool) (s : Propagation g) (signature : Text) : Prop where
  passed : signature ∈ s.resolved ∨ status signature = some false
  finished : ∀ frame ∈ s.stack, frame.procedure.signature ≠ signature

/-- What is true between two moments of a propagation. -/
structure Leads (status : Text → Option Bool) (s t : Propagation g) : Prop where
  extended : s.costs.Extends status t.costs
  kept : ∀ {signature}, (s.costs.store.propagated.get? signature).isSome →
    (t.costs.store.propagated.get? signature).isSome
  closed : ∀ {signature}, s.Closed status signature → t.Closed status signature ∧
    t.costs.store.propagated.get? signature = s.costs.store.propagated.get? signature

namespace Leads

variable {first second third : Propagation g}

theorem refl (s : Propagation g) : s.Leads status s :=
  ⟨.refl _, id, fun closed => ⟨closed, rfl⟩⟩

theorem trans (early : first.Leads status second) (late : second.Leads status third) :
    first.Leads status third where
  extended := early.extended.trans late.extended
  kept isSome := late.kept (early.kept isSome)
  closed isClosed := by
    obtain ⟨stillClosed, same⟩ := early.closed isClosed
    obtain ⟨closedLast, sameLast⟩ := late.closed stillClosed
    exact ⟨closedLast, sameLast.trans same⟩

/-- A step that writes under a signature that is open leads on. -/
theorem of_writes {signature : Text} (writes : first.costs.Writes status signature second.costs)
    (isOpen : ¬ first.Closed status signature)
    (closed : ∀ {other}, first.Closed status other → second.Closed status other) :
    first.Leads status second where
  extended := writes.toExtends
  kept {other} isSome := by
    by_cases same : signature = other
    · exact same ▸ writes.kept (same ▸ isSome)
    · rwa [writes.others same]
  closed {other} isClosed := by
    have different : signature ≠ other := fun same => isOpen (same ▸ isClosed)
    exact ⟨closed isClosed, writes.others different⟩

end Leads

namespace Tended

variable {start : Inspection} {s : Propagation g} (tended : s.Tended start status)

include tended

/-- The frame on top is finished. -/
theorem finish {p : Procedure} {rest : List (Frame g)}
    (onTop : s.stack = { procedure := p, pending := [] } :: rest) :
    Tended start status { s with stack := rest } ∧ s.Leads status { s with stack := rest } := by
  have inStack {frame : Frame g} (inRest : frame ∈ rest) : frame ∈ s.stack :=
    onTop ▸ List.mem_cons_of_mem _ inRest
  refine ⟨⟨tended.alike, fun frame inRest => tended.resolved frame (inStack inRest),
    fun frame inRest => tended.judged frame (inStack inRest)⟩, .refl _, id, fun closed => ⟨?_, rfl⟩⟩
  exact ⟨closed.passed, fun frame inRest => closed.finished frame (inStack inRest)⟩

/-- The frame on top is done with a call. -/
theorem handle {p : Procedure} {call : PendingCall g} {pending : List (PendingCall g)}
    {rest : List (Frame g)} {after : Costs}
    (onTop : s.stack = { procedure := p, pending := call :: pending } :: rest)
    (writes : s.costs.Writes status p.signature after) :
    let t : Propagation g := { s with costs := after, stack := { procedure := p, pending } :: rest }
    t.Tended start status ∧ s.Leads status t := by
  obtain ⟨topResolved, restResolved⟩ := List.forall_mem_cons.mp (onTop ▸ tended.resolved)
  obtain ⟨topJudged, restJudged⟩ := List.forall_mem_cons.mp (onTop ▸ tended.judged)
  refine ⟨⟨tended.alike.trans writes.recalls.alike,
    List.forall_mem_cons.mpr ⟨topResolved, restResolved⟩,
    List.forall_mem_cons.mpr ⟨(List.forall_mem_cons.mp topJudged).2, restJudged⟩⟩, ?_⟩
  refine .of_writes writes (fun closed => ?_) fun closed => ⟨closed.passed, ?_⟩
  · exact closed.finished _ (onTop ▸ List.mem_cons_self) rfl
  · exact List.forall_mem_cons.mpr (List.forall_mem_cons.mp (onTop ▸ closed.finished))

/-- The turn of a procedure comes. -/
theorem enter (judges : Judges g start status) {p : Procedure} (isNew : p.signature ∉ s.resolved)
    (judged : (start.isApplication p).toOption = status p.signature)
    (notLibrary : status p.signature ≠ some false) :
    let t : Propagation g :=
      { costs := (Propagation.enter (g := g) p s.costs).1
        resolved := p.signature :: s.resolved
        stack := (Propagation.enter p s.costs).2 ++ s.stack }
    t.Tended start status ∧ s.Leads status t := by
  have writes : s.costs.Writes status p.signature (Propagation.enter (g := g) p s.costs).1 :=
    writes_enter (tended.alike.isApplication p ▸ judged)
  refine ⟨⟨tended.alike.trans writes.recalls.alike, fun frame inStack => ?_,
    fun frame inStack call isCall => ?_⟩, .of_writes writes (fun closed => ?_) fun closed => ?_⟩
  · rcases List.mem_append.mp inStack with onTop | below
    · exact (enter_frames onTop).1 ▸ List.mem_cons_self
    · exact List.mem_cons_of_mem _ (tended.resolved frame below)
  · rcases List.mem_append.mp inStack with onTop | below
    · obtain ⟨site, e, leaves, isTarget⟩ := (enter_frames onTop).2 call isCall
      exact isTarget ▸ judges.targets leaves
    · exact tended.judged frame below call isCall
  · exact closed.passed.elim isNew notLibrary
  · refine ⟨closed.passed.imp_left (List.mem_cons_of_mem _), fun frame inStack => ?_⟩
    rcases List.mem_append.mp inStack with onTop | below
    · rw [(enter_frames onTop).1]
      rintro rfl
      exact closed.passed.elim isNew notLibrary
    · exact closed.finished frame below

theorem targetJudged {p : Procedure} {call : PendingCall g} {pending : List (PendingCall g)}
    {rest : List (Frame g)}
    (onTop : s.stack = { procedure := p, pending := call :: pending } :: rest) :
    (s.costs.inspection.isApplication call.target).toOption = status call.target.signature := by
  rw [tended.alike.isApplication]
  exact tended.judged _ (onTop ▸ List.mem_cons_self) call List.mem_cons_self

/-- The next call of the frame on top is folded in, or skipped. -/
theorem fold {p : Procedure} {call : PendingCall g} {pending : List (PendingCall g)}
    {rest : List (Frame g)}
    (onTop : s.stack = { procedure := p, pending := call :: pending } :: rest) :
    let t : Propagation g :=
      { s with costs := foldCall p call s.costs, stack := { procedure := p, pending } :: rest }
    t.Tended start status ∧ s.Leads status t :=
  tended.handle onTop (writes_foldCall p (tended.targetJudged onTop))

theorem skip {p : Procedure} {call : PendingCall g} {pending : List (PendingCall g)}
    {rest : List (Frame g)}
    (onTop : s.stack = { procedure := p, pending := call :: pending } :: rest) (fault : Fault) :
    let t : Propagation g :=
      { s with
        costs := recordSkipped p call fault s.costs
        stack := { procedure := p, pending } :: rest }
    t.Tended start status ∧ s.Leads status t :=
  tended.handle onTop (.of_store (.of_eq rfl rfl) rfl)

/-- The next call of the frame on top leads to application code. -/
theorem descend (judges : Judges g start status) {p : Procedure} {call : PendingCall g}
    {pending : List (PendingCall g)} {rest : List (Frame g)}
    (onTop : s.stack = { procedure := p, pending := call :: pending } :: rest)
    (isNew : call.target.signature ∉ s.resolved)
    (isApplication : s.costs.inspection.isApplication call.target = .ok true) :
    let t : Propagation g :=
      { costs := (Propagation.enter (g := g) call.target s.costs).1
        resolved := call.target.signature :: s.resolved
        stack := (Propagation.enter call.target s.costs).2 ++ s.stack }
    t.Tended start status ∧ s.Leads status t := by
  have judged := tended.targetJudged onTop
  refine tended.enter judges isNew (tended.alike.isApplication call.target ▸ judged) ?_
  rw [← judged, isApplication]
  simp [Except.toOption]

end Tended

theorem Leads.onwards {start : Inspection} {s next last : Propagation g} (leads : s.Leads status next)
    (ends : last.Tended start status ∧ next.Leads status last ∧ last.stack = []) :
    last.Tended start status ∧ s.Leads status last ∧ last.stack = [] :=
  ⟨ends.1, leads.trans ends.2.1, ends.2.2⟩

theorem Tended.drain {start : Inspection} (judges : Judges g start status) {s : Propagation g}
    (tended : s.Tended start status) :
    s.drain.Tended start status ∧ s.Leads status s.drain ∧ s.drain.stack = [] := by
  fun_induction Propagation.drain s with
  | case1 s idle => exact ⟨tended, .refl _, idle⟩
  | case2 s p rest onTop ih =>
      obtain ⟨next, leads⟩ := tended.finish onTop
      exact leads.onwards (ih next)
  | case3 s p call pending rest onTop target done isResolved ih =>
      obtain ⟨next, leads⟩ := tended.fold onTop
      exact leads.onwards (ih next)
  | case4 s p call pending rest onTop target done isNew fault unclear ih =>
      obtain ⟨next, leads⟩ := tended.skip onTop fault
      exact leads.onwards (ih next)
  | case5 s p call pending rest onTop target done isNew isLibrary ih =>
      obtain ⟨next, leads⟩ := tended.fold onTop
      exact leads.onwards (ih next)
  | case6 s p call pending rest onTop target isNew isApplication costs frames entered ih =>
      have descends := tended.descend judges onTop isNew isApplication
      rw [onTop, entered] at descends
      obtain ⟨next, leads⟩ := descends
      exact leads.onwards (ih next)

theorem Tended.visit {start : Inspection} (judges : Judges g start status) {s : Propagation g}
    (tended : s.Tended start status) (idle : s.stack = []) {p : Procedure}
    (listed : p ∈ start.program.applicationProcedures) :
    (s.visit p).Tended start status ∧ s.Leads status (s.visit p) ∧ (s.visit p).stack = [] := by
  unfold Propagation.visit
  split
  · exact ⟨tended, .refl _, idle⟩
  · rename_i isNew
    obtain ⟨next, leads⟩ :=
      tended.enter judges isNew (judges.roots listed) (judges.application listed)
    exact leads.onwards (next.drain judges)

theorem Tended.visitAll {start : Inspection} (judges : Judges g start status)
    {roots : List Procedure} (listed : roots ⊆ start.program.applicationProcedures)
    {s : Propagation g} (tended : s.Tended start status) (idle : s.stack = []) :
    s.Leads status (roots.foldl Propagation.visit s) := by
  induction roots generalizing s with
  | nil => exact .refl _
  | cons root rest ih =>
      obtain ⟨rootListed, restListed⟩ := List.cons_subset.mp listed
      obtain ⟨next, leads, idleNext⟩ := tended.visit judges idle rootListed
      exact leads.trans (ih restListed next idleNext)

end Propagation

end CallWeight
