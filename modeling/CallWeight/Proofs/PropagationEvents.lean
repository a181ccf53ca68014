import CallWeight.Proofs.Accounts
import CallWeight.Proofs.Leaves

/-! # The events of a propagation

Whatever fails on the way, a propagation is a sequence of events of four kinds: the turn of a procedure
begins with a list of calls, or it is given up because a question about the procedure fails; a call is
folded in, or it is skipped because a question about its target fails. Between the beginning of a turn
and a call of it many other turns may begin and end, so what is true in the end is read off the frames
that are suspended on the way: the calls handled so far and the calls that wait in the frame of a
procedure are together all its calls. Which calls these are is settled when the turn begins, by the edges
at the call sites and by the loop depths that the program tells, and no turn or call before has changed
what it tells for the procedure.
-/

namespace CallWeight

namespace Propagation

/-! ## Events -/

variable {g : CallGraph}

/-- What happens in a propagation. -/
inductive Event (g : CallGraph) where
  /-- The turn of a procedure begins with these calls to handle. -/
  | began (p : Procedure) (calls : List (PendingCall g))
  /-- The turn of a procedure is given up before it has calls. -/
  | stopped (p : Procedure) (fault : Fault)
  /-- The cost of a call's target is folded into the record of the procedure. -/
  | folded (p : Procedure) (call : PendingCall g)
  /-- A call of the procedure is skipped. -/
  | skipped (p : Procedure) (call : PendingCall g) (fault : Fault)

namespace Event

/-- The signature whose turn comes. -/
def turn? : Event g → Option Text
  | .began p _ | .stopped p _ => some p.signature
  | .folded _ _ | .skipped _ _ _ => none

/-- The procedure that is looked at. -/
def subject : Event g → Procedure
  | .began p _ | .stopped p _ => p
  | .folded _ call | .skipped _ call _ => call.target

/-- The call of a given signature that is handled. -/
def handled? (signature : Text) : Event g → Option (PendingCall g)
  | .began _ _ | .stopped _ _ => none
  | .folded p call | .skipped p call _ => if p.signature = signature then some call else none

/-- The issue that is recorded. -/
def issue? : Event g → Option Issue
  | .began _ _ | .folded _ _ => none
  | .stopped p fault => some {
      kind := .extractionFailure
      phase := "propagate"
      message := "propagation stopped early; keeping partial features"
        ++ " (" ++ fault.label ++ ": " ++ fault.message ++ ")"
      procedure := some p.signature }
  | .skipped p call fault => some {
      kind := .classificationFailure
      phase := "propagate"
      message := "call edge skipped during propagation"
        ++ " (" ++ fault.label ++ ": " ++ fault.message ++ ")"
      procedure := some p.signature
      statement := call.index }

end Event

/-- How the costs change when something happens. A turn begins if the body, the local cost and the loop
    depths of the procedure are obtained; its calls are then the edges at its call sites. -/
inductive Happens : Event g → Costs → Costs → Prop
  | leaf {p : Procedure} {before : Costs} (noBody : before.inspection.body p = .ok none) :
      Happens (.began p []) before (registerLeaf p before)
  | began {p : Procedure} {body : List Statement} {start : CostRecord} {depths : DepthMap}
      {before seeded after : Costs} (hasBody : before.inspection.body p = .ok (some body))
      (counted : Costing.localCost p before = .ok start seeded)
      (looked : Costing.inspect (Inspecting.depthMap p)
        { seeded with store := seeded.store.put p.signature start } = .ok depths after) :
      Happens (.began p ((p.placed body).flatMap (callsAt g depths))) before after
  | bodyFails {p : Procedure} {fault : Fault} {before : Costs}
      (fails : before.inspection.body p = .error fault) :
      Happens (.stopped p fault) before (recordFailure p fault before)
  | countFails {p : Procedure} {body : List Statement} {fault : Fault} {before failed : Costs}
      (hasBody : before.inspection.body p = .ok (some body))
      (fails : Costing.localCost p before = .error fault failed) :
      Happens (.stopped p fault) before (recordFailure p fault failed)
  | depthsFail {p : Procedure} {body : List Statement} {start : CostRecord} {fault : Fault}
      {before seeded failed : Costs} (hasBody : before.inspection.body p = .ok (some body))
      (counted : Costing.localCost p before = .ok start seeded)
      (fails : Costing.inspect (Inspecting.depthMap p)
        { seeded with store := seeded.store.put p.signature start } = .error fault failed) :
      Happens (.stopped p fault) before (recordFailure p fault failed)
  | folded {p : Procedure} {call : PendingCall g} {own callee : CostRecord} {before priced : Costs}
      (message : Text) (found : Costing.cost call.target before = .ok callee priced)
      (recorded : priced.store.propagated.get? p.signature = some own) :
      Happens (.folded p call) before
        { inspection := priced.inspection.debug .propagation message
          store := priced.store.put p.signature { own with
            static := own.static + callee.static
            approx := own.approx + callee.approx * 10 ^ call.depth } }
  | targetFails {p : Procedure} {call : PendingCall g} {fault : Fault} {before : Costs}
      (fails : before.inspection.isApplication call.target = .error fault) :
      Happens (.skipped p call fault) before (recordSkipped p call fault before)
  | costFails {p : Procedure} {call : PendingCall g} {fault : Fault} {before failed : Costs}
      (fails : Costing.cost call.target before = .error fault failed) :
      Happens (.skipped p call fault) before (recordSkipped p call fault failed)

/-- The costs after some events, one after the other. -/
inductive History (first : Costs) : List (Event g) → Costs → Prop
  | nil : History first [] first
  | snoc {events : List (Event g)} {event : Event g} {before after : Costs} :
      History first events before → Happens event before after →
      History first (events ++ [event]) after

/-- Some issues of propagation are new, and no propagated record was taken away. -/
structure Grows (before after : Costs) (new : IssueLog) : Prop where
  issues : after.inspection.issuesIn "propagate" = before.inspection.issuesIn "propagate" ++ new
  records : ∀ signature, (before.store.propagated.get? signature).isSome →
    (after.store.propagated.get? signature).isSome

namespace Grows

variable {first second third : Costs} {new more : IssueLog}

theorem trans (early : Grows first second new) (late : Grows second third more) :
    Grows first third (new ++ more) where
  issues := by rw [late.issues, early.issues, List.append_assoc]
  records signature isSome := late.records signature (early.records signature isSome)

theorem of_visible (same : visible second = visible first) : Grows first second [] := by
  obtain ⟨records, issues⟩ := Prod.mk.inj same
  exact ⟨by rw [issues, List.append_nil], fun signature isSome => records ▸ isSome⟩

theorem put (costs : Costs) (signature : Text) (r : CostRecord) :
    Grows costs { costs with store := costs.store.put signature r } [] where
  issues := (List.append_nil _).symm
  records other isSome := by
    simp only [CostStore.put, OrderedMap.get?_insert]
    split
    · rfl
    · exact isSome

theorem recordFailure (g : CallGraph) (p : Procedure) (fault : Fault) (costs : Costs) :
    Grows costs (recordFailure p fault costs) (Event.stopped (g := g) p fault).issue?.toList where
  issues := by
    simp [Propagation.recordFailure, noting, Inspection.record, Inspection.warning,
      IssueLog.record, Inspection.issuesIn, Event.issue?, Issue.ofFailure, Fault.toCause]
  records _ isSome := isSome

theorem recordSkipped (p : Procedure) (call : PendingCall g) (fault : Fault) (costs : Costs) :
    Grows costs (recordSkipped p call fault costs) (Event.skipped p call fault).issue?.toList where
  issues := by
    simp [Propagation.recordSkipped, noting, Inspection.record, Inspection.debug, IssueLog.record,
      Inspection.issuesIn, Event.issue?, Issue.ofFailure, Fault.toCause]
  records _ isSome := isSome

end Grows

/-- The new issues are those of the event. -/
theorem Happens.grows {event : Event g} {before after : Costs} (happens : Happens event before after) :
    Grows before after event.issue?.toList := by
  cases happens with
  | @leaf p _ _ => exact (Grows.put before p.signature _).trans (.of_visible rfl)
  | began hasBody counted looked =>
      exact (Grows.of_visible ((leaves_localCost (overlooks_propagate _)).ok counted)).trans
        ((Grows.put _ _ _).trans
          (.of_visible ((leaves_inspect (overlooks_propagate _).depthMap).ok looked)))
  | bodyFails fails => exact .recordFailure g _ _ _
  | countFails hasBody fails =>
      exact (Grows.of_visible ((leaves_localCost (overlooks_propagate _)).error fails)).trans
        (.recordFailure g _ _ _)
  | depthsFail hasBody counted fails =>
      exact (Grows.of_visible ((leaves_localCost (overlooks_propagate _)).ok counted)).trans
        ((Grows.put _ _ _).trans
          ((Grows.of_visible ((leaves_inspect (overlooks_propagate _).depthMap).error fails)).trans
            (.recordFailure g _ _ _)))
  | folded message found recorded =>
      exact (Grows.of_visible ((leaves_cost (overlooks_propagate _)).ok found)).trans
        ((Grows.put _ _ _).trans (.of_visible rfl))
  | targetFails fails => exact .recordSkipped _ _ _ _
  | costFails fails =>
      exact (Grows.of_visible ((leaves_cost (overlooks_propagate _)).error fails)).trans
        (.recordSkipped _ _ _ _)

theorem History.grows {first after : Costs} {events : List (Event g)}
    (history : History first events after) : Grows first after (events.filterMap Event.issue?) := by
  induction history with
  | nil => exact .of_visible rfl
  | @snoc events event _ _ _ happens ih =>
      rw [List.filterMap_append]
      have new := happens.grows
      cases isIssue : event.issue? <;> simpa [isIssue] using ih.trans new

/-- A turn or a call changes only what is told about the loops of the signature that is looked at, and
    not even that if a call leads into library code. -/
theorem Happens.depthsOf {event : Event g} {before after : Costs} (happens : Happens event before after)
    {p : Procedure} (apart : event.subject.signature ≠ p.signature ∨
      event.turn? = none ∧ before.inspection.isApplication event.subject = .ok false) :
    after.inspection.depthsOf p = before.inspection.depthsOf p := by
  have turn {q : Procedure} (different : q.signature ≠ p.signature) :
      Overlooks (Inspection.depthsOf p) q := overlooks_depthsOf (.inr different)
  cases happens with
  | leaf noBody => rfl
  | began hasBody counted looked =>
      rcases apart with different | ⟨isCall, -⟩
      · have counts := (Prod.mk.inj ((leaves_localCost (turn different)).ok counted)).2
        have looks := (Prod.mk.inj ((leaves_inspect (turn different).depthMap).ok looked)).2
        exact looks.trans counts
      · cases isCall
  | bodyFails fails => rfl
  | countFails hasBody fails =>
      rcases apart with different | ⟨isCall, -⟩
      · exact (Prod.mk.inj ((leaves_localCost (turn different)).error fails)).2
      · cases isCall
  | depthsFail hasBody counted fails =>
      rcases apart with different | ⟨isCall, -⟩
      · have counts := (Prod.mk.inj ((leaves_localCost (turn different)).ok counted)).2
        have looks := (Prod.mk.inj ((leaves_inspect (turn different).depthMap).error fails)).2
        exact looks.trans counts
      · cases isCall
  | @folded q call _ _ _ _ message found recorded =>
      have kept : (stateAfter (Costing.cost call.target) before).inspection.depthsOf p =
          before.inspection.depthsOf p := depthsOf_cost (apart.imp_right And.right)
      rwa [stateAfter, found] at kept
  | targetFails fails => rfl
  | @costFails q call _ _ _ fails =>
      have kept : (stateAfter (Costing.cost call.target) before).inspection.depthsOf p =
          before.inspection.depthsOf p := depthsOf_cost (apart.imp_right And.right)
      rwa [stateAfter, fails] at kept

/-- The calls of a turn are the edges at the call sites of its procedure. -/
theorem Happens.calls {p : Procedure} {calls : List (PendingCall g)} {before after : Costs}
    (happens : Happens (.began p calls) before after) :
    calls.map (fun call => (call.index, call.depth, call.target)) =
      p.callTriples g fun position => (before.inspection.depthsOf p).depthAt (p.site position) := by
  cases happens with
  | leaf noBody =>
      have noBody : p.body = none := Except.ok.inj (Inspection.answer_eq_ok.mp noBody).2
      simp [Procedure.callTriples, Procedure.statements, noBody]
  | @began _ body start depths _ seeded _ hasBody counted looked =>
      have isBody : p.body = some body := Except.ok.inj (Inspection.answer_eq_ok.mp hasBody).2
      have counts := (Prod.mk.inj ((leaves_localCost (overlooks_depthsOf (.inl rfl))).ok counted)).2
      have told : depths = before.inspection.depthsOf p := (eq_depthsOf looked).trans counts
      rw [← told, ← p.map_callsAt, Procedure.statements, isBody]
      rfl

/-! ## What the parts of a propagation do -/

/-- The turn of a procedure begins with a frame of its calls and a record, or is given up. -/
theorem enter_happens (g : CallGraph) (p : Procedure) (costs : Costs) :
    (∃ calls after, enter p costs = (after, [{ procedure := p, pending := calls }]) ∧
        Happens (g := g) (.began p calls) costs after ∧
        (after.store.propagated.get? p.signature).isSome) ∨
      ∃ fault after, enter (g := g) p costs = (after, []) ∧
        Happens (g := g) (.stopped p fault) costs after := by
  have isSome_put (store : CostStore) (r : CostRecord) :
      ((store.put p.signature r).propagated.get? p.signature).isSome := by
    simp [CostStore.put, OrderedMap.get?_insert]
  unfold enter
  rw [begin_eq]
  cases hasBody : costs.inspection.body p with
  | error fault => exact .inr ⟨fault, _, rfl, .bodyFails hasBody⟩
  | ok body =>
      cases body with
      | none => exact .inl ⟨[], _, rfl, .leaf hasBody, isSome_put _ _⟩
      | some body =>
          cases counted : Costing.localCost p costs with
          | error fault failed =>
              exact .inr ⟨fault, _, rfl, .countFails hasBody counted⟩
          | ok start seeded =>
              cases looked : Costing.inspect (Inspecting.depthMap p)
                  { seeded with store := seeded.store.put p.signature start } with
              | error fault failed =>
                  exact .inr ⟨fault, _, by simp only [looked], .depthsFail hasBody counted looked⟩
              | ok depths after =>
                  refine .inl ⟨_, after, by simp only [looked], .began hasBody counted looked, ?_⟩
                  have kept :=
                    (Prod.mk.inj ((leaves_inspect (overlooks_propagate p).depthMap).ok looked)).1
                  rw [kept]
                  exact isSome_put _ _

/-- Folding in a call of a procedure with a record succeeds, or the call is skipped. -/
theorem foldCall_happens {p : Procedure} {costs : Costs} (call : PendingCall g)
    (isSome : (costs.store.propagated.get? p.signature).isSome) :
    Happens (.folded p call) costs (foldCall p call costs) ∨
      ∃ fault, Happens (.skipped p call fault) costs (foldCall p call costs) := by
  unfold foldCall
  cases found : Costing.cost call.target costs with
  | error fault failed => exact .inr ⟨fault, .costFails found⟩
  | ok callee priced =>
      have kept := (Prod.mk.inj ((leaves_cost (overlooks_propagate _)).ok found)).1
      obtain ⟨own, recorded⟩ := Option.isSome_iff_exists.mp isSome
      rw [← kept] at recorded
      simp only [recorded, Option.getD_some]
      exact .inl (.folded _ found recorded)

/-! ## Whole runs -/

open Progress (pendingIn pendingIn_eq_nil)

/-- What the events so far say about a propagation and the frames that are suspended in it. -/
structure Traced (first : Costs) (events : List (Event g)) (s : Propagation g) : Prop where
  history : History first events s.costs
  turns : s.resolved = (events.filterMap Event.turn?).reverse
  distinct : s.resolved.Nodup
  suspended : (s.stack.map (·.procedure.signature)).Nodup
  frames : ∀ frame ∈ s.stack, ∃ calls, Event.began frame.procedure calls ∈ events
  recorded : ∀ {p calls}, Event.began p calls ∈ events →
    (s.costs.store.propagated.get? p.signature).isSome
  /-- Only calls of begun turns are handled. -/
  unhandled : ∀ {signature}, (∀ {p calls}, Event.began p calls ∈ events → p.signature ≠ signature) →
    events.filterMap (Event.handled? signature) = []
  /-- The calls of a begun turn are those handled so far and those that wait. -/
  balance : ∀ {p calls}, Event.began p calls ∈ events →
    events.filterMap (Event.handled? p.signature) ++ pendingIn p.signature s.stack = calls
  /-- What is told about the loops of a procedure does not change before the turn of its signature. -/
  remembered : ∀ {p}, p.signature ∉ s.resolved →
    s.costs.inspection.depthsOf p = first.inspection.depthsOf p
  enumerated : ∀ {p calls}, Event.began p calls ∈ events →
    calls.map (fun call => (call.index, call.depth, call.target)) =
      p.callTriples g (first.inspection.program.statementDepth p)

namespace Traced

variable {first : Costs} {events : List (Event g)} {s : Propagation g}
  (traced : Traced first events s)

include traced

theorem mem_resolved {p : Procedure} {calls : List (PendingCall g)}
    (began : .began p calls ∈ events) : p.signature ∈ s.resolved := by
  rw [traced.turns, List.mem_reverse, List.mem_filterMap]
  exact ⟨_, began, rfl⟩

/-- A frame without calls has nothing to wait for. -/
theorem finish {p : Procedure} {rest : List (Frame g)}
    (onTop : s.stack = { procedure := p, pending := [] } :: rest) :
    Traced first events { s with stack := rest } := by
  have suspended := traced.suspended
  rw [onTop, List.map_cons, List.nodup_cons] at suspended
  refine { traced with
    suspended := suspended.2
    frames := fun frame inRest => traced.frames frame (onTop ▸ List.mem_cons_of_mem _ inRest)
    balance := fun {q calls} began => ?_ }
  have balance := traced.balance began
  rw [onTop, pendingIn] at balance
  split at balance
  · rename_i same
    rwa [pendingIn_eq_nil (same ▸ suspended.1)]
  · exact balance

/-- The first call that waits in the frame on top is folded in or skipped. -/
theorem handle {p : Procedure} {call : PendingCall g} {pending : List (PendingCall g)}
    {rest : List (Frame g)} {event : Event g} {after : Costs}
    (onTop : s.stack = { procedure := p, pending := call :: pending } :: rest)
    (isCall : event = .folded p call ∨ ∃ fault, event = .skipped p call fault)
    (happens : Happens event s.costs after)
    (kept : ∀ {q}, q.signature ∉ s.resolved →
      after.inspection.depthsOf q = s.costs.inspection.depthsOf q) :
    Traced first (events ++ [event])
      { s with costs := after, stack := { procedure := p, pending } :: rest } := by
  have noTurn : event.turn? = none := by
    rcases isCall with rfl | ⟨fault, rfl⟩ <;> rfl
  have handled (signature : Text) :
      event.handled? signature = if p.signature = signature then some call else none := by
    rcases isCall with rfl | ⟨fault, rfl⟩ <;> rfl
  have notBegun {q : Procedure} {calls : List (PendingCall g)}
      (began : .began q calls ∈ events ++ [event]) : .began q calls ∈ events := by
    rcases List.mem_append.mp began with old | new
    · exact old
    · rw [← List.mem_singleton.mp new] at noTurn
      cases noTurn
  obtain ⟨topCalls, topBegan⟩ := traced.frames _ (onTop ▸ List.mem_cons_self)
  refine ⟨traced.history.snoc happens, ?_, traced.distinct, ?_, ?_, ?_, ?_, ?_,
    fun isNew => (kept isNew).trans (traced.remembered isNew),
    fun began => traced.enumerated (notBegun began)⟩
  · simp [traced.turns, noTurn]
  · simpa [onTop] using traced.suspended
  · intro frame inStack
    rcases List.mem_cons.mp inStack with rfl | inRest
    · exact ⟨topCalls, List.mem_append_left _ topBegan⟩
    · obtain ⟨calls, began⟩ := traced.frames frame (onTop ▸ List.mem_cons_of_mem _ inRest)
      exact ⟨calls, List.mem_append_left _ began⟩
  · intro q calls began
    exact happens.grows.records _ (traced.recorded (notBegun began))
  · intro signature none
    have other : p.signature ≠ signature := none (List.mem_append_left _ topBegan)
    have before := traced.unhandled fun began => none (List.mem_append_left _ began)
    simp [before, handled, other]
  · intro q calls began
    have balance := traced.balance (notBegun began)
    rw [onTop] at balance
    by_cases same : p.signature = q.signature
    · simpa [handled, same, pendingIn] using balance
    · simpa [handled, same, pendingIn] using balance

/-- The first call that waits in the frame on top is folded in, if its cost can be told. -/
theorem foldCall {p : Procedure} {call : PendingCall g} {pending : List (PendingCall g)}
    {rest : List (Frame g)}
    (onTop : s.stack = { procedure := p, pending := call :: pending } :: rest)
    (ready : call.target.signature ∈ s.resolved ∨
      s.costs.inspection.isApplication call.target = .ok false) :
    ∃ event, Traced first (events ++ [event])
      { s with
        costs := Propagation.foldCall p call s.costs
        stack := { procedure := p, pending } :: rest } := by
  obtain ⟨calls, began⟩ := traced.frames _ (onTop ▸ List.mem_cons_self)
  have apart {q : Procedure} (isNew : q.signature ∉ s.resolved) :
      call.target.signature ≠ q.signature ∨
        s.costs.inspection.isApplication call.target = .ok false :=
    ready.imp_left fun isResolved same => isNew (same ▸ isResolved)
  rcases foldCall_happens call (traced.recorded began) with folded | ⟨fault, skipped⟩
  · exact ⟨_, traced.handle onTop (.inl rfl) folded fun isNew =>
      folded.depthsOf ((apart isNew).imp_right fun isLibrary => ⟨rfl, isLibrary⟩)⟩
  · exact ⟨_, traced.handle onTop (.inr ⟨fault, rfl⟩) skipped fun isNew =>
      skipped.depthsOf ((apart isNew).imp_right fun isLibrary => ⟨rfl, isLibrary⟩)⟩

/-- The turn of one signature changes nothing that is told about the loops of others. -/
theorem remembered_turn {p q : Procedure} {event : Event g} {after : Costs}
    (happens : Happens event s.costs after) (isTurn : event.subject = p)
    (others : q.signature ∉ p.signature :: s.resolved) :
    after.inspection.depthsOf q = first.inspection.depthsOf q := by
  rw [List.mem_cons, not_or] at others
  rw [happens.depthsOf (.inl (isTurn ▸ Ne.symm others.1)), traced.remembered others.2]

section Turn

variable {p : Procedure} (isNew : p.signature ∉ s.resolved) {after : Costs}

include isNew

theorem notBegun {q : Procedure} {calls : List (PendingCall g)} (began : .began q calls ∈ events) :
    q.signature ≠ p.signature :=
  fun same => isNew (same ▸ traced.mem_resolved began)

theorem begin {calls : List (PendingCall g)} (happens : Happens (.began p calls) s.costs after)
    (isSome : (after.store.propagated.get? p.signature).isSome) :
    Traced first (events ++ [.began p calls])
      { costs := after
        resolved := p.signature :: s.resolved
        stack := { procedure := p, pending := calls } :: s.stack } := by
  have noneHandled (signature : Text) :
      [Event.began p calls].filterMap (Event.handled? signature) = [] := rfl
  refine ⟨traced.history.snoc happens, ?_, ?_, ?_, ?_, ?_, ?_, ?_,
    traced.remembered_turn happens rfl, ?_⟩
  · simp [traced.turns, Event.turn?]
  · exact List.nodup_cons.mpr ⟨isNew, traced.distinct⟩
  · refine List.nodup_cons.mpr ⟨fun listed => ?_, traced.suspended⟩
    obtain ⟨frame, inStack, same⟩ := List.mem_map.mp listed
    obtain ⟨others, began⟩ := traced.frames frame inStack
    exact traced.notBegun isNew began same
  · intro frame inStack
    rcases List.mem_cons.mp inStack with rfl | inRest
    · exact ⟨calls, List.mem_append_right _ List.mem_cons_self⟩
    · obtain ⟨others, began⟩ := traced.frames frame inRest
      exact ⟨others, List.mem_append_left _ began⟩
  · intro q others began
    rcases List.mem_append.mp began with old | new
    · exact happens.grows.records _ (traced.recorded old)
    · cases List.mem_singleton.mp new
      exact isSome
  · intro signature none
    rw [List.filterMap_append, noneHandled, List.append_nil]
    exact traced.unhandled fun began => none (List.mem_append_left _ began)
  · intro q others began
    rw [List.filterMap_append, noneHandled, List.append_nil, pendingIn]
    rcases List.mem_append.mp began with old | new
    · rw [if_neg (traced.notBegun isNew old).symm]
      exact traced.balance old
    · cases List.mem_singleton.mp new
      rw [if_pos rfl, traced.unhandled (traced.notBegun isNew), List.nil_append]
  · intro q others began
    rcases List.mem_append.mp began with old | new
    · exact traced.enumerated old
    · cases List.mem_singleton.mp new
      have told := traced.remembered isNew
      rw [happens.calls, told]
      exact congrArg _ (funext fun position => Program.depthAt_depthMap _ _ position)

theorem stop {fault : Fault} (happens : Happens (g := g) (.stopped p fault) s.costs after) :
    Traced first (events ++ [.stopped p fault])
      { costs := after, resolved := p.signature :: s.resolved, stack := s.stack } := by
  have noneHandled (signature : Text) :
      [Event.stopped (g := g) p fault].filterMap (Event.handled? signature) = [] := rfl
  have begun {q : Procedure} {calls : List (PendingCall g)}
      (began : .began q calls ∈ events ++ [.stopped p fault]) : .began q calls ∈ events := by
    rcases List.mem_append.mp began with old | new
    · exact old
    · cases List.mem_singleton.mp new
  refine ⟨traced.history.snoc happens, ?_, ?_, traced.suspended, ?_, ?_, ?_, ?_,
    traced.remembered_turn happens rfl, fun began => traced.enumerated (begun began)⟩
  · simp [traced.turns, Event.turn?]
  · exact List.nodup_cons.mpr ⟨isNew, traced.distinct⟩
  · intro frame inStack
    obtain ⟨others, began⟩ := traced.frames frame inStack
    exact ⟨others, List.mem_append_left _ began⟩
  · intro q others began
    exact happens.grows.records _ (traced.recorded (begun began))
  · intro signature none
    rw [List.filterMap_append, noneHandled, List.append_nil]
    exact traced.unhandled fun began => none (List.mem_append_left _ began)
  · intro q others began
    rw [List.filterMap_append, noneHandled, List.append_nil]
    exact traced.balance (begun began)

/-- A turn comes for a signature that had none. -/
theorem enter : ∃ event, Traced first (events ++ [event])
    { costs := (Propagation.enter (g := g) p s.costs).1
      resolved := p.signature :: s.resolved
      stack := (Propagation.enter p s.costs).2 ++ s.stack } := by
  rcases enter_happens g p s.costs with ⟨calls, after, entered, happens, isSome⟩ |
    ⟨fault, after, entered, happens⟩
  · rw [entered]
    exact ⟨_, traced.begin isNew happens isSome⟩
  · rw [entered]
    exact ⟨_, traced.stop isNew happens⟩

end Turn

end Traced

theorem Traced.drain {first : Costs} {s : Propagation g}
    (traced : ∃ events, Traced first events s) :
    (∃ events, Traced first events s.drain) ∧ s.drain.stack = [] ∧
      s.resolved ⊆ s.drain.resolved := by
  fun_induction Propagation.drain s with
  | case1 s idle => exact ⟨traced, idle, List.Subset.refl _⟩
  | case2 s p rest onTop ih =>
      obtain ⟨events, traced⟩ := traced
      exact ih ⟨_, traced.finish onTop⟩
  | case3 s p call pending rest onTop target done isResolved ih =>
      obtain ⟨events, traced⟩ := traced
      obtain ⟨event, next⟩ := traced.foldCall onTop (.inl isResolved)
      exact ih ⟨_, next⟩
  | case4 s p call pending rest onTop target done isNew fault unclear ih =>
      obtain ⟨events, traced⟩ := traced
      exact ih ⟨_, traced.handle onTop (.inr ⟨fault, rfl⟩) (.targetFails unclear) fun _ => rfl⟩
  | case5 s p call pending rest onTop target done isNew isLibrary ih =>
      obtain ⟨events, traced⟩ := traced
      obtain ⟨event, next⟩ := traced.foldCall onTop (.inr isLibrary)
      exact ih ⟨_, next⟩
  | case6 s p call pending rest onTop target isNew isApplication costs frames entered ih =>
      obtain ⟨events, traced⟩ := traced
      obtain ⟨event, next⟩ := traced.enter isNew
      rw [onTop, entered] at next
      obtain ⟨final, idle, more⟩ := ih ⟨_, next⟩
      exact ⟨final, idle, List.Subset.trans (List.subset_cons_self _ _) more⟩

theorem Traced.visit {first : Costs} {s : Propagation g} (traced : ∃ events, Traced first events s)
    (idle : s.stack = []) (p : Procedure) :
    (∃ events, Traced first events (s.visit p)) ∧ (s.visit p).stack = [] ∧
      p.signature :: s.resolved ⊆ (s.visit p).resolved := by
  unfold Propagation.visit
  split
  · rename_i isResolved
    exact ⟨traced, idle, List.cons_subset.mpr ⟨isResolved, List.Subset.refl _⟩⟩
  · rename_i isNew
    obtain ⟨events, traced⟩ := traced
    obtain ⟨event, next⟩ := traced.enter isNew
    exact drain ⟨_, next⟩

theorem Traced.visitAll {first : Costs} {s : Propagation g}
    (traced : ∃ events, Traced first events s) (idle : s.stack = []) (roots : List Procedure) :
    (∃ events, Traced first events (roots.foldl Propagation.visit s)) ∧
      (roots.foldl Propagation.visit s).stack = [] ∧
      s.resolved ⊆ (roots.foldl Propagation.visit s).resolved ∧
      ∀ p ∈ roots, p.signature ∈ (roots.foldl Propagation.visit s).resolved := by
  induction roots generalizing s with
  | nil => exact ⟨traced, idle, List.Subset.refl _, by simp⟩
  | cons root rest ih =>
      obtain ⟨next, idleNext, more⟩ := visit traced idle root
      obtain ⟨final, idleFinal, most, restResolved⟩ := ih next idleNext
      obtain ⟨rootResolved, kept⟩ := List.cons_subset.mp more
      refine ⟨final, idleFinal, List.Subset.trans kept most, fun p listed => ?_⟩
      rcases List.mem_cons.mp listed with rfl | inRest
      · exact most rootResolved
      · exact restResolved p inRest

/-- Without two turns of one signature there is one issue per turn that is given up. -/
theorem countP_stopped {events : List (Event g)} {p : Procedure} {fault : Fault}
    (distinct : (events.filterMap Event.turn?).Nodup) (stopped : .stopped p fault ∈ events) :
    (events.filterMap Event.issue?).countP (fun issue =>
      issue.kind = .extractionFailure ∧ issue.procedure = some p.signature) = 1 := by
  rw [List.countP_filterMap]
  have turn {event : Event g} (isStop : (event.issue?.map fun issue : Issue => decide
        (issue.kind = .extractionFailure ∧ issue.procedure = some p.signature)).getD false = true) :
      (event.turn?.map (· == p.signature)).getD false = true := by
    cases event with
    | began | folded => simp [Event.issue?] at isStop
    | skipped => simp [Event.issue?] at isStop
    | stopped q fault => simpa [Event.issue?, Event.turn?] using isStop
  apply Nat.le_antisymm
  · calc _ ≤ events.countP fun event => (event.turn?.map (· == p.signature)).getD false :=
          List.countP_mono_left fun event _ => turn
      _ = (events.filterMap Event.turn?).count p.signature := (List.countP_filterMap ..).symm
      _ ≤ 1 := List.nodup_iff_count_le_one.mp distinct _
  · exact List.countP_pos_iff.mpr ⟨_, stopped, by simp [Event.issue?]⟩

/-- A propagation loses no call silently, whatever fails: it is a history of events in which no signature
    has two turns and every application procedure has one; the calls of a turn that begins are handled
    each once and in order, and they are all edges out of all call sites of the procedure, with the index
    and the loop depth of their statements; no other calls are handled; the issues of propagation are
    those of the turns that are given up and of the calls that are skipped, one for each; and an
    application procedure that is left without a propagated record is one whose turn was given up. -/
theorem every_call_is_folded_or_reported (g : CallGraph) (costs : Costs) :
    ∃ (events : List (Event g)) (last : Costs),
      History (noting (·.info .propagation "Propagating invocations through the call graph") costs)
        events last ∧
      (run g costs).costs = noting
        (·.info .propagation s!"Resolved {(run g costs).resolved.length} procedures") last ∧
      (run g costs).resolved = (events.filterMap Event.turn?).reverse ∧
      (run g costs).resolved.Nodup ∧
      (∀ p ∈ costs.inspection.program.applicationProcedures,
        p.signature ∈ (run g costs).resolved) ∧
      (∀ p calls, .began p calls ∈ events →
        events.filterMap (Event.handled? p.signature) = calls ∧
        calls.map (fun call => (call.index, call.depth, call.target)) =
          (p.statements.zipIdx.filter (·.1.isCall)).flatMap fun (s, position) =>
            (g.edgesOutOf (p.site position)).map fun e =>
              (s.index, costs.inspection.program.statementDepth p position, e.target)) ∧
      (∀ signature, events.filterMap (Event.handled? signature) ≠ [] →
        ∃ p calls, .began p calls ∈ events ∧ p.signature = signature) ∧
      (run g costs).costs.inspection.issuesIn "propagate" =
        costs.inspection.issuesIn "propagate" ++ events.filterMap Event.issue? ∧
      (∀ p fault, .stopped p fault ∈ events →
        (events.filterMap Event.issue?).countP (fun issue =>
          issue.kind = .extractionFailure ∧ issue.procedure = some p.signature) = 1) ∧
      ∀ p ∈ costs.inspection.program.applicationProcedures,
        (run g costs).costs.store.propagated.get? p.signature = none →
          ∃ q fault, .stopped q fault ∈ events ∧ q.signature = p.signature := by
  let first := noting (·.info .propagation "Propagating invocations through the call graph") costs
  have start : Traced first [] ({ costs := first } : Propagation g) :=
    { history := .nil
      turns := rfl
      distinct := List.nodup_nil
      suspended := List.nodup_nil
      frames := fun _ inStack => by cases inStack
      recorded := fun began => by cases began
      unhandled := fun _ => rfl
      balance := fun began => by cases began
      remembered := fun _ => rfl
      enumerated := fun began => by cases began }
  obtain ⟨⟨events, traced⟩, idle, -, resolved⟩ :=
    Traced.visitAll ⟨[], start⟩ rfl costs.inspection.program.applicationProcedures
  have distinct : (events.filterMap Event.turn?).Nodup :=
    List.nodup_reverse.mp (traced.turns ▸ traced.distinct)
  refine ⟨events, _, traced.history, rfl, traced.turns, traced.distinct, resolved, ?_, ?_,
    traced.history.grows.issues, fun p fault => countP_stopped distinct, ?_⟩
  · intro p calls began
    have balance := traced.balance began
    rw [idle, pendingIn, List.append_nil] at balance
    exact ⟨balance, traced.enumerated began⟩
  · intro signature some
    by_contra none
    exact some (traced.unhandled fun {p calls} began same => none ⟨p, calls, began, same⟩)
  · intro p listed missing
    have hasTurn := resolved p listed
    rw [traced.turns, List.mem_reverse, List.mem_filterMap] at hasTurn
    obtain ⟨event, happened, isTurn⟩ := hasTurn
    cases event with
    | began q calls =>
        have isSome := traced.recorded happened
        rw [Option.some.inj isTurn] at isSome
        exact absurd isSome (Option.not_isSome_iff_eq_none.mpr missing)
    | stopped q fault => exact ⟨q, fault, happened, Option.some.inj isTurn⟩
    | folded q call => cases isTurn
    | skipped q call fault => cases isTurn

end Propagation

end CallWeight
