import CallWeight.Proofs.AssembledPrograms
import CallWeight.Proofs.KeptCosts
import CallWeight.Proofs.PlainRecursion
import CallWeight.Session.Step

/-! # Propagating once more

A second propagation finds the records of the first one in the store, and depth maps that the first one
had to compute. Still it does the same, move by move. What it looks up was never replaced, so it reads
what the first one has read or written at the same moment. Propagated records are replaced, but a record
is only folded in when its signature is resolved, and then the second propagation has written it again,
or when it belongs to library code, and then neither propagation writes it.

The last point needs that a signature belongs to library code or does not. Procedures of different
classes can share a signature, and if one of them is library code and another one is not, the first
propagation folds in what the store held before and the second one what the first one has propagated.
-/

namespace CallWeight

/-! ## Records that are written again -/

namespace OrderedMap

variable {α β : Type} [DecidableEq α]

/-- Whether the second list of entries is the first one with other values for some keys that are not seen
    before. Of several entries with one key only the first one counts, and the others are left alone. -/
inductive Rewritten : List α → List (α × β) → List (α × β) → Prop
  | nil {seen : List α} : Rewritten seen [] []
  | counts {seen : List α} {key : α} {old new : β} {rest others : List (α × β)} (isNew : key ∉ seen) :
      Rewritten (key :: seen) rest others →
        Rewritten seen ((key, old) :: rest) ((key, new) :: others)
  | shadowed {seen : List α} {key : α} {value : β} {rest others : List (α × β)}
      (wasSeen : key ∈ seen) : Rewritten seen rest others →
        Rewritten seen ((key, value) :: rest) ((key, value) :: others)

namespace Rewritten

variable {seen : List α} {entries others : List (α × β)}

theorem refl (seen : List α) (entries : List (α × β)) : Rewritten seen entries entries := by
  induction entries generalizing seen with
  | nil => exact .nil
  | cons entry rest ih =>
      by_cases wasSeen : entry.1 ∈ seen
      · exact .shadowed wasSeen (ih seen)
      · exact .counts wasSeen (ih _)

theorem insertIn {key : α} (rewritten : Rewritten seen entries others) (isNew : key ∉ seen)
    (isKey : (lookupIn key entries).isSome) (value : β) :
    Rewritten seen entries (insertIn key value others) := by
  induction rewritten with
  | nil => cases isKey
  | @counts seen other old new rest others otherNew tail ih =>
      by_cases same : other = key
      · simp only [OrderedMap.insertIn, same, if_true]
        exact same ▸ .counts otherNew tail
      · simp only [OrderedMap.insertIn, same, if_false]
        simp only [lookupIn, same, if_false] at isKey
        exact .counts otherNew (ih (by simp [isNew, Ne.symm same]) isKey)
  | @shadowed seen other kept rest others wasSeen tail ih =>
      have different : other ≠ key := fun same => isNew (same ▸ wasSeen)
      simp only [OrderedMap.insertIn, different, if_false]
      simp only [lookupIn, different, if_false] at isKey
      exact .shadowed wasSeen (ih isNew isKey)

theorem eq_of_lookupIn (rewritten : Rewritten seen entries others)
    (same : ∀ key ∉ seen, lookupIn key others = lookupIn key entries) : others = entries := by
  induction rewritten with
  | nil => rfl
  | @counts seen key old new rest others isNew tail ih =>
      have sameValue : new = old := by simpa [lookupIn] using same key isNew
      rw [sameValue, ih fun other otherNew => ?_]
      obtain ⟨different, unseen⟩ := not_or.mp (List.mem_cons.not.mp otherNew)
      simpa [lookupIn, Ne.symm different] using same other unseen
  | @shadowed seen key kept rest others wasSeen tail ih =>
      rw [ih fun other unseen => ?_]
      have different : key ≠ other := fun isKey => unseen (isKey ▸ wasSeen)
      simpa [lookupIn, different] using same other unseen

end Rewritten

end OrderedMap

/-! ## Doing it again -/

/-- Where a second propagation stands at a moment of a first one that has ended with the given costs: what
    was counted and computed by the end is there, the records of resolved signatures are as they were at
    that moment, and the others are as they were in the end. -/
structure Costs.Redoes (final : Costs) (resolved : List Text) (costs again : Costs) : Prop where
  alike : costs.inspection.Alike again.inspection
  depths : again.inspection.program.depthCache = final.inspection.program.depthCache
  locals : again.store.locals = final.store.locals
  external : again.store.external = final.store.external
  rewritten : OrderedMap.Rewritten [] final.store.propagated.entries again.store.propagated.entries
  redone : ∀ {signature}, signature ∈ resolved →
    again.store.propagated.get? signature = costs.store.propagated.get? signature
  untouched : ∀ {signature}, signature ∉ resolved →
    again.store.propagated.get? signature = final.store.propagated.get? signature

namespace Costs.Redoes

variable {status : Text → Option Bool} {final costs again : Costs} {resolved : List Text}
  (redoes : Redoes final resolved costs again)

include redoes

theorem counted?_eq (signature : Text) :
    again.store.counted? signature = final.store.counted? signature := by
  simp only [CostStore.counted?, redoes.locals, redoes.external]

/-- The first propagation counts or computes something. -/
theorem first {after : Costs} (alike : costs.inspection.Alike after.inspection)
    (propagated : after.store.propagated = costs.store.propagated) :
    Redoes final resolved after again :=
  { redoes with
    alike := alike.symm.trans redoes.alike
    redone := fun isResolved => by rw [redoes.redone isResolved, propagated] }

/-- Both propagations write something down about the program. -/
theorem noted (change : Inspection → Inspection)
    (kept : ∀ i, (change i).failures = i.failures ∧ (change i).program = i.program) :
    Redoes final resolved (Propagation.noting change costs) (Propagation.noting change again) :=
  have alike (i : Inspection) : i.Alike (change i) := .of_eq (kept i).1 (kept i).2
  { redoes with
    alike := (alike _).symm.trans (redoes.alike.trans (alike _))
    depths := by simpa only [Propagation.noting, (kept _).2] using redoes.depths }

theorem stop (p : Procedure) (fault : Fault) :
    Redoes final resolved (Propagation.recordFailure p fault costs)
      (Propagation.recordFailure p fault again) := by
  unfold Propagation.recordFailure
  refine redoes.noted _ ?_
  exact fun _ => ⟨rfl, rfl⟩

theorem skip {g : CallGraph} (p : Procedure) (call : PendingCall g) (fault : Fault) :
    Redoes final resolved (Propagation.recordSkipped p call fault costs)
      (Propagation.recordSkipped p call fault again) := by
  unfold Propagation.recordSkipped
  refine redoes.noted _ ?_
  exact fun _ => ⟨rfl, rfl⟩

/-- Both propagations write a record. -/
theorem put {signature : Text} {more : List Text}
    (isMore : ∀ other, other ∈ more ↔ other = signature ∨ other ∈ resolved)
    (recorded : (final.store.propagated.get? signature).isSome) (r : CostRecord) :
    Redoes final more { costs with store := costs.store.put signature r }
      { again with store := again.store.put signature r } where
  alike := redoes.alike
  depths := redoes.depths
  locals := redoes.locals
  external := redoes.external
  rewritten := redoes.rewritten.insertIn List.not_mem_nil recorded r
  redone {other} isResolved := by
    simp only [CostStore.put, OrderedMap.get?_insert]
    split
    · rfl
    · rename_i different
      exact redoes.redone (((isMore other).mp isResolved).resolve_left (Ne.symm different))
  untouched {other} isNew := by
    obtain ⟨different, isNew⟩ := not_or.mp ((isMore other).not.mp isNew)
    rw [← redoes.untouched isNew]
    simp only [CostStore.put, OrderedMap.get?_insert, if_neg (Ne.symm different)]

/-- Both propagations give up a turn without a record. -/
theorem leave {signature : Text} (isNew : signature ∉ resolved)
    (same : final.store.propagated.get? signature = costs.store.propagated.get? signature) :
    Redoes final (signature :: resolved) costs again :=
  { redoes with
    redone := fun {other} isResolved => by
      rcases List.mem_cons.mp isResolved with rfl | old
      · rw [redoes.untouched isNew, same]
      · exact redoes.redone old
    untouched := fun {other} otherNew =>
      redoes.untouched fun old => otherNew (List.mem_cons_of_mem _ old) }

/-- In the end nothing is different. -/
theorem store_eq (same : costs.store = final.store) : again.store = final.store := by
  have records (signature : Text) :
      again.store.propagated.get? signature = final.store.propagated.get? signature := by
    by_cases isResolved : signature ∈ resolved
    · rw [redoes.redone isResolved, same]
    · exact redoes.untouched isResolved
  have propagated : again.store.propagated = final.store.propagated :=
    congrArg OrderedMap.mk (redoes.rewritten.eq_of_lookupIn fun signature _ => records signature)
  calc again.store
      = ⟨again.store.locals, again.store.propagated, again.store.external⟩ := rfl
    _ = ⟨final.store.locals, final.store.propagated, final.store.external⟩ := by
        rw [redoes.locals, propagated, redoes.external]

section Turn

variable {g : CallGraph} {p : Procedure} {after : Costs} {fault : Fault}

/-- The second propagation finds the local cost that the first one found or counted. -/
theorem localCost_ok {r : CostRecord} (counted : Costing.localCost p costs = .ok r after)
    (kept : after.Extends status final) : Costing.localCost p again = .ok r again :=
  (counted ▸ Costing.lookup_localCost p costs).again_ok kept (redoes.counted?_eq _)
    (Costing.lookup_localCost p again)

theorem localCost_error (fails : Costing.localCost p costs = .error fault after)
    (judged : (costs.inspection.isApplication p).toOption = status p.signature)
    (kept : costs.Extends status final) : Costing.localCost p again = .error fault again :=
  (fails ▸ Costing.lookup_localCost p costs).again_error judged kept redoes.alike
    (redoes.counted?_eq _) (Costing.lookup_localCost p again)

/-- The second propagation finds the depth map that the first one found or computed. -/
theorem depthMap_ok {depths : DepthMap}
    (looked : Costing.inspect (Inspecting.depthMap p) costs = .ok depths after)
    (kept : after.Extends status final) :
    Costing.inspect (Inspecting.depthMap p) again = .ok depths again := by
  rw [Propagation.inspect_depthMap] at looked ⊢
  rw [redoes.alike.failure?]
  cases refused : costs.inspection.failure? .depths (.text p.signature) with
  | some fault => simp [refused] at looked
  | none =>
      simp only [refused] at looked
      cases looked
      have cached := kept.recalls.depths (costs.inspection.program.depthCache_self p)
      rw [← redoes.depths] at cached
      simp only [Program.depthMap_of_cached cached]

theorem depthMap_error
    (fails : Costing.inspect (Inspecting.depthMap p) costs = .error fault after) :
    Costing.inspect (Inspecting.depthMap p) again = .error fault again := by
  rw [Propagation.inspect_depthMap] at fails ⊢
  rw [redoes.alike.failure?]
  cases refused : costs.inspection.failure? .depths (.text p.signature) with
  | none => simp [refused] at fails
  | some other =>
      simp only [refused] at fails
      cases fails
      rfl

/-- The turn of a procedure begins or is given up as it was before. -/
theorem enter (judged : (costs.inspection.isApplication p).toOption = status p.signature)
    (isNew : p.signature ∉ resolved)
    (kept : (Propagation.enter (g := g) p costs).1.Extends status final)
    (recorded : ((Propagation.enter (g := g) p costs).1.store.propagated.get? p.signature).isSome →
      (final.store.propagated.get? p.signature).isSome)
    (closed : (Propagation.enter (g := g) p costs).2 = [] →
      final.store.propagated.get? p.signature =
        (Propagation.enter (g := g) p costs).1.store.propagated.get? p.signature) :
    ∃ later, Propagation.enter (g := g) p again = (later, (Propagation.enter p costs).2) ∧
      Redoes final (p.signature :: resolved) (Propagation.enter (g := g) p costs).1 later := by
  have body := redoes.alike.body p
  have isSome_put (store : CostStore) (r : CostRecord) :
      ((store.put p.signature r).propagated.get? p.signature).isSome := by
    simp [CostStore.put, OrderedMap.get?_insert]
  have seeding {r : CostRecord} {seeded : Costs}
      (counted : Costing.localCost p costs = .ok r seeded)
      (recorded : (final.store.propagated.get? p.signature).isSome) :
      Redoes final (p.signature :: resolved)
        { seeded with store := seeded.store.put p.signature r }
        { again with store := again.store.put p.signature r } := by
    have lookup := counted ▸ Costing.lookup_localCost p costs
    exact (redoes.first (lookup.extends_ok judged).recalls.alike lookup.propagated_ok).put
      (fun _ => List.mem_cons) recorded r
  rcases Propagation.enter_happens g p costs with ⟨calls, after, entered, happens, isSome⟩ |
    ⟨fault, after, entered, happens⟩
  · rw [entered] at kept recorded ⊢
    have hasRecord := recorded isSome
    cases happens with
    | leaf noBody =>
        refine ⟨Propagation.registerLeaf p again, ?_, ?_⟩
        · simp only [Propagation.enter, Propagation.begin_eq, body, noBody]
        · exact (redoes.put (fun _ => List.mem_cons) hasRecord _).noted (·.debug .propagation _)
            fun _ => ⟨rfl, rfl⟩
    | began hasBody counted looked =>
        obtain ⟨recalls, store⟩ := Propagation.recalls_of_depthMap looked
        have seeded := seeding counted hasRecord
        have putKept := (Costs.Writes.put _ _ _).toExtends.trans
          ((Costs.Extends.of_store recalls store).trans kept)
        have countedAgain := redoes.localCost_ok counted putKept
        have lookedAgain := seeded.depthMap_ok looked kept
        refine ⟨_, ?_, seeded.first recalls.alike (by rw [store])⟩
        simp only [Propagation.enter, Propagation.begin_eq, body, hasBody, countedAgain, lookedAgain]
  · rw [entered] at kept recorded closed ⊢
    have same := closed rfl
    have stopKept (before : Costs) :
        before.Extends status (Propagation.recordFailure p fault before) :=
      .of_store (.of_eq rfl rfl) rfl
    cases happens with
    | bodyFails fails =>
        refine ⟨Propagation.recordFailure p fault again, ?_, ?_⟩
        · simp only [Propagation.enter, Propagation.begin_eq, body, fails]
        · exact (redoes.leave isNew same).stop p fault
    | countFails hasBody fails =>
        have lookup := fails ▸ Costing.lookup_localCost p costs
        rw [lookup.state_error] at kept same ⊢
        have failsAgain := redoes.localCost_error fails judged ((stopKept costs).trans kept)
        refine ⟨Propagation.recordFailure p fault again, ?_, ?_⟩
        · simp only [Propagation.enter, Propagation.begin_eq, body, hasBody, failsAgain]
        · exact (redoes.leave isNew same).stop p fault
    | depthsFail hasBody counted fails =>
        rw [Propagation.state_of_depthMap fails] at kept recorded ⊢
        have seeded := seeding counted (recorded (isSome_put _ _))
        have putKept := (Costs.Writes.put _ _ _).toExtends.trans ((stopKept _).trans kept)
        have countedAgain := redoes.localCost_ok counted putKept
        have failsAgain := seeded.depthMap_error fails
        refine ⟨_, ?_, seeded.stop p fault⟩
        simp only [Propagation.enter, Propagation.begin_eq, body, hasBody, countedAgain, failsAgain]

end Turn

/-- A call is folded in or skipped as it was before, if its target has the same record. -/
theorem foldCall {g : CallGraph} {p : Procedure} {call : PendingCall g}
    (judged : (costs.inspection.isApplication call.target).toOption = status call.target.signature)
    (isResolved : p.signature ∈ resolved)
    (kept : (Propagation.foldCall p call costs).Extends status final)
    (recorded : ((Propagation.foldCall p call costs).store.propagated.get? p.signature).isSome →
      (final.store.propagated.get? p.signature).isSome)
    (same : again.store.propagated.get? call.target.signature =
      costs.store.propagated.get? call.target.signature) :
    Redoes final resolved (Propagation.foldCall p call costs) (Propagation.foldCall p call again) := by
  have askedAgain := redoes.alike.failure? .cost (.text call.target.signature)
  have counted := redoes.counted?_eq call.target.signature
  unfold Propagation.foldCall at kept recorded ⊢
  cases asked : costs.inspection.failure? .cost (.text call.target.signature) with
  | some fault =>
      rw [Costing.cost_of_refused asked, Costing.cost_of_refused (askedAgain.trans asked)]
      exact redoes.skip p call fault
  | none =>
      have lookup := Costing.lookup_cost asked
      have lookupAgain := Costing.lookup_cost (askedAgain.trans asked)
      rw [same] at lookupAgain
      cases priced : Costing.cost call.target costs with
      | error fault after =>
          rw [priced] at lookup kept
          obtain rfl := lookup.state_error
          have skipKept : after.Extends status (Propagation.recordSkipped p call fault after) :=
            .of_store (.of_eq rfl rfl) rfl
          rw [lookup.again_error judged (skipKept.trans kept) redoes.alike counted lookupAgain]
          exact redoes.skip p call fault
      | ok callee after =>
          rw [priced] at lookup kept recorded
          have putKept : after.Extends status final := by
            refine Costs.Extends.trans ?_ kept
            exact .of_eq (.of_eq rfl rfl) rfl rfl
          rw [lookup.again_ok putKept counted lookupAgain]
          have first := redoes.first (lookup.extends_ok judged).recalls.alike lookup.propagated_ok
          have own := first.redone isResolved
          simp only [own]
          refine (first.put (fun other => ?_) (recorded ?_) _).noted (·.debug .propagation _)
            fun _ => ⟨rfl, rfl⟩
          · exact (or_iff_right_of_imp fun isTop => isTop ▸ isResolved).symm
          · simp [CostStore.put, OrderedMap.get?_insert]

end Costs.Redoes

namespace Propagation

variable {g : CallGraph} {status : Text → Option Bool} {start : Inspection}

theorem onStack_eq {s : Propagation g} {stack : List (Frame g)} (onTop : s.stack = stack)
    (again : Costs) : ({ s with costs := again } : Propagation g) =
      Resolution.onStack { costs := again, resolved := s.resolved } stack := by
  simp only [Resolution.onStack, onTop]

section Again

variable {final s : Propagation g} {again : Costs} (tended : s.Tended start status)
  (redoes : final.costs.Redoes s.resolved s.costs again)

include tended redoes

/-- The record of a target that is folded in is the same in both propagations: if the target is resolved,
    the second one has written it by now, and if it is library code, neither of them writes it. -/
theorem target_record {p : Procedure} {call : PendingCall g} {pending : List (PendingCall g)}
    {rest : List (Frame g)}
    (onTop : s.stack = { procedure := p, pending := call :: pending } :: rest)
    (leads : s.Leads status final)
    (isReady : call.target.signature ∈ s.resolved ∨
      s.costs.inspection.isApplication call.target = .ok false) :
    again.store.propagated.get? call.target.signature =
      s.costs.store.propagated.get? call.target.signature := by
  by_cases isResolved : call.target.signature ∈ s.resolved
  · exact redoes.redone isResolved
  · have isLibrary := isReady.resolve_left isResolved
    have closed : s.Closed status call.target.signature :=
      { passed := .inr (by rw [← tended.targetJudged onTop, isLibrary]; rfl)
        finished := fun frame inStack same => isResolved (same ▸ tended.resolved frame inStack) }
    exact (redoes.untouched isResolved).trans (leads.closed closed).2

theorem redoes_fold {p : Procedure} {call : PendingCall g} {pending : List (PendingCall g)}
    {rest : List (Frame g)}
    (onTop : s.stack = { procedure := p, pending := call :: pending } :: rest)
    (isReady : call.target.signature ∈ s.resolved ∨
      s.costs.inspection.isApplication call.target = .ok false)
    (leads : Leads status
      { s with costs := foldCall p call s.costs, stack := { procedure := p, pending } :: rest } final) :
    final.costs.Redoes s.resolved (foldCall p call s.costs) (foldCall p call again) :=
  redoes.foldCall (tended.targetJudged onTop) (tended.resolved _ (onTop ▸ List.mem_cons_self))
    leads.extended leads.kept
    (target_record tended redoes onTop ((tended.fold onTop).2.trans leads) isReady)

theorem redoes_enter {p : Procedure} (isNew : p.signature ∉ s.resolved)
    (judged : (start.isApplication p).toOption = status p.signature)
    (leads : Leads status
      { costs := (enter (g := g) p s.costs).1
        resolved := p.signature :: s.resolved
        stack := (enter p s.costs).2 ++ s.stack } final) :
    ∃ later, enter (g := g) p again = (later, (enter p s.costs).2) ∧
      final.costs.Redoes (p.signature :: s.resolved) (enter (g := g) p s.costs).1 later := by
  refine redoes.enter (tended.alike.isApplication p ▸ judged) isNew leads.extended leads.kept
    fun noFrame => (leads.closed ⟨.inl List.mem_cons_self, fun frame inStack same => ?_⟩).2
  rw [noFrame, List.nil_append] at inStack
  exact isNew (same ▸ tended.resolved frame inStack)

end Again

theorem redoes_drain (judges : Judges g start status) {final s : Propagation g}
    (tended : s.Tended start status) (leads : s.drain.Leads status final) :
    ∀ again, final.costs.Redoes s.resolved s.costs again →
    ∃ later, ({ s with costs := again } : Propagation g).drain = { s.drain with costs := later } ∧
      final.costs.Redoes s.drain.resolved s.drain.costs later := by
  have sameAnswer {s : Propagation g} {again : Costs}
      (redoes : final.costs.Redoes s.resolved s.costs again) (p : Procedure) :
      again.inspection.isApplication p = s.costs.inspection.isApplication p :=
    redoes.alike.isApplication p
  fun_induction drain s with
  | case1 s idle =>
      intro again redoes
      refine ⟨again, ?_, redoes⟩
      rw [onStack_eq idle, Resolution.drain_nil, ← onStack_eq idle]
  | case2 s p rest onTop ih =>
      intro again redoes
      obtain ⟨later, drained, redoesLast⟩ := ih (tended.finish onTop).1 leads again redoes
      refine ⟨later, ?_, redoesLast⟩
      rw [onStack_eq onTop, Resolution.drain_finished]
      exact drained
  | case3 s p call pending rest onTop target done isResolved ih =>
      intro again redoes
      obtain ⟨next, -⟩ := tended.fold onTop
      have leadsNow := (next.drain judges).2.1.trans leads
      have folded := redoes_fold tended redoes onTop (.inl isResolved) leadsNow
      obtain ⟨later, drained, redoesLast⟩ := ih next leads _ folded
      refine ⟨later, ?_, redoesLast⟩
      rw [onStack_eq onTop, Resolution.drain_fold (.inl isResolved)]
      exact drained
  | case4 s p call pending rest onTop target done isNew fault unclear ih =>
      intro again redoes
      obtain ⟨later, drained, redoesLast⟩ :=
        ih (tended.skip onTop fault).1 leads _ (redoes.skip p call fault)
      refine ⟨later, ?_, redoesLast⟩
      rw [onStack_eq onTop,
        Resolution.drain_skip isNew ((sameAnswer redoes call.target).trans unclear)]
      exact drained
  | case5 s p call pending rest onTop target done isNew isLibrary ih =>
      intro again redoes
      obtain ⟨next, -⟩ := tended.fold onTop
      have leadsNow := (next.drain judges).2.1.trans leads
      have folded := redoes_fold tended redoes onTop (.inr isLibrary) leadsNow
      obtain ⟨later, drained, redoesLast⟩ := ih next leads _ folded
      refine ⟨later, ?_, redoesLast⟩
      rw [onStack_eq onTop,
        Resolution.drain_fold (.inr ((sameAnswer redoes call.target).trans isLibrary))]
      exact drained
  | case6 s p call pending rest onTop target isNew isApplication costs frames entered ih =>
      intro again redoes
      have descends := tended.descend judges onTop isNew isApplication
      have judged := tended.judged _ (onTop ▸ List.mem_cons_self) call List.mem_cons_self
      have enters := redoes_enter tended redoes isNew judged
      rw [onTop, entered] at descends enters
      obtain ⟨next, -⟩ := descends
      obtain ⟨middle, enteredAgain, redoesNow⟩ := enters ((next.drain judges).2.1.trans leads)
      obtain ⟨later, drained, redoesLast⟩ := ih next leads _ redoesNow
      refine ⟨later, ?_, redoesLast⟩
      rw [onStack_eq onTop,
        Resolution.drain_enter isNew ((sameAnswer redoes call.target).trans isApplication)]
      simp only [enteredAgain]
      exact drained

theorem redoes_visit (judges : Judges g start status) {final s : Propagation g} {again : Costs}
    (tended : s.Tended start status) {p : Procedure}
    (listed : p ∈ start.program.applicationProcedures) (leads : (s.visit p).Leads status final)
    (redoes : final.costs.Redoes s.resolved s.costs again) :
    ∃ later, ({ s with costs := again } : Propagation g).visit p = { s.visit p with costs := later } ∧
      final.costs.Redoes (s.visit p).resolved (s.visit p).costs later := by
  unfold visit at leads ⊢
  by_cases isResolved : p.signature ∈ s.resolved
  · simp only [isResolved, if_true] at leads ⊢
    exact ⟨again, rfl, redoes⟩
  · simp only [isResolved, if_false] at leads ⊢
    obtain ⟨next, -⟩ :=
      tended.enter judges isResolved (judges.roots listed) (judges.application listed)
    have leadsNow := (next.drain judges).2.1.trans leads
    obtain ⟨middle, entered, redoesNow⟩ :=
      redoes_enter tended redoes isResolved (judges.roots listed) leadsNow
    rw [entered]
    exact redoes_drain judges next leads middle redoesNow

theorem redoes_visitAll (judges : Judges g start status) {roots : List Procedure}
    (listed : roots ⊆ start.program.applicationProcedures) {final s : Propagation g} {again : Costs}
    (tended : s.Tended start status) (idle : s.stack = [])
    (leads : (roots.foldl visit s).Leads status final)
    (redoes : final.costs.Redoes s.resolved s.costs again) :
    ∃ later, roots.foldl visit ({ s with costs := again } : Propagation g) =
        { roots.foldl visit s with costs := later } ∧
      final.costs.Redoes (roots.foldl visit s).resolved (roots.foldl visit s).costs later := by
  induction roots generalizing s again with
  | nil => exact ⟨again, rfl, redoes⟩
  | cons root rest ih =>
      obtain ⟨rootListed, restListed⟩ := List.cons_subset.mp listed
      obtain ⟨next, -, idleNext⟩ := tended.visit judges idle rootListed
      have leadsNow := (next.visitAll judges restListed idleNext).trans leads
      obtain ⟨middle, visited, redoesNow⟩ := redoes_visit judges tended rootListed leadsNow redoes
      obtain ⟨later, visitedAll, redoesLast⟩ := ih restListed next idleNext leads redoesNow
      refine ⟨later, ?_, redoesLast⟩
      rw [List.foldl_cons, visited]
      exact visitedAll

/-- A propagation after its last move. -/
def ended (s : Propagation g) : Propagation g :=
  { s with
    costs := noting (·.info .propagation s!"Resolved {s.resolved.length} procedures") s.costs }

theorem run_eq_ended (g : CallGraph) (costs : Costs) : run g costs =
    ended (costs.inspection.program.applicationProcedures.foldl visit (begun g costs)) := rfl

section Runs

variable {costs : Costs} (judges : Judges g costs.inspection status)

theorem tended_begun : (begun g costs).Tended costs.inspection status where
  alike := .of_eq rfl rfl
  resolved _ inStack := by cases inStack
  judged _ inStack := by cases inStack

include judges

theorem leads_begun : (begun g costs).Leads status
    (costs.inspection.program.applicationProcedures.foldl visit (begun g costs)) :=
  tended_begun.visitAll judges (List.Subset.refl _) rfl

theorem alike_run : costs.inspection.Alike (run g costs).costs.inspection := by
  have begins : costs.inspection.Alike (begun g costs).costs.inspection := .of_eq rfl rfl
  exact begins.trans ((leads_begun judges).extended.recalls.alike.trans (.of_eq rfl rfl))

/-- If signatures tell what is application code, a second run ends where the first one has ended. -/
theorem run_run : (run g (run g costs).costs).costs.store = (run g costs).costs.store ∧
    (run g (run g costs).costs).resolved = (run g costs).resolved := by
  let roots := costs.inspection.program.applicationProcedures
  let final := roots.foldl visit (begun g costs)
  have alike := alike_run judges
  have begins : costs.inspection.Alike (begun g costs).costs.inspection := .of_eq rfl rfl
  have redoes : final.costs.Redoes [] (begun g costs).costs (begun g (run g costs).costs).costs :=
    { alike := begins.symm.trans (alike.trans (.of_eq rfl rfl))
      depths := rfl
      locals := rfl
      external := rfl
      rewritten := .refl _ _
      redone := fun isResolved => by cases isResolved
      untouched := fun _ => rfl }
  obtain ⟨later, visited, redoesLast⟩ :=
    redoes_visitAll judges (List.Subset.refl _) tended_begun rfl (.refl _) redoes
  have sameRoots : (run g costs).costs.inspection.program.applicationProcedures = roots :=
    alike.program.applicationProcedures
  have sameStart : begun g (run g costs).costs =
      { begun g costs with costs := (begun g (run g costs).costs).costs } := rfl
  rw [run_eq_ended g (run g costs).costs, sameRoots, sameStart, visited]
  exact ⟨redoesLast.store_eq rfl, rfl⟩

end Runs

/-- What the first of some procedures with a signature is found to be. -/
def statusIn (i : Inspection) (procedures : List Procedure) (signature : Text) : Option Bool :=
  (procedures.find? (·.signature = signature)).bind fun p => (i.isApplication p).toOption

theorem statusIn_eq {i : Inspection} {procedures : List Procedure}
    (agreed : ∀ p ∈ procedures, ∀ q ∈ procedures, p.signature = q.signature →
      (i.isApplication p).toOption = (i.isApplication q).toOption) {p : Procedure} (listed : p ∈ procedures) :
    (i.isApplication p).toOption = statusIn i procedures p.signature := by
  unfold statusIn
  cases found : procedures.find? (·.signature = p.signature) with
  | none =>
      have different := List.find?_eq_none.mp found p listed
      simp at different
  | some q =>
      have same : q.signature = p.signature := by simpa using List.find?_some found
      rw [agreed p listed q (List.mem_of_find?_eq_some found) same.symm]
      rfl

end Propagation

/-- The targets of the edges of call sites. -/
def CallGraph.targets (g : CallGraph) : List Procedure := g.bySite.values.flatten.map (·.target)

theorem CallGraph.target_mem_targets {g : CallGraph} {site : Site} {e : CallEdge}
    (leaves : e ∈ g.edgesOutOf site) : e.target ∈ g.targets := by
  unfold edgesOutOf at leaves
  cases found : g.bySite.get? site with
  | none => simp [found] at leaves
  | some filed =>
      rw [found, Option.getD_some] at leaves
      exact List.mem_map_of_mem
        (List.mem_flatten.mpr ⟨filed, OrderedMap.mem_values_of_get? found, leaves⟩)

theorem Inspection.isApplication_of_accepted {i : Inspection} {p : Procedure}
    (accepted : i.program.config.isApplicationClass p.declaringClass = true) :
    i.isApplication p = i.answer .application (.text p.signature) (.ok true) := by
  obtain ⟨name, isName, isOurs⟩ := Config.isApplicationClass_iff.mp accepted
  have value : i.program.isApplication p = .ok true := by
    unfold Program.isApplication Procedure.className
    rw [isName]
    exact congrArg (fun answer => Except.ok (!answer)) isOurs
  rw [Inspection.isApplication, value]

namespace Session

/-- The procedures that a propagation can come to: it starts from the application procedures and follows
    edges. -/
def subjects (s : Session) : List Procedure :=
  s.inspection.program.applicationProcedures ++ s.graph.targets

theorem judges {s : Session} (assembled : s.inspection.program.Assembled)
    (agreed : ∀ p ∈ s.subjects, ∀ q ∈ s.subjects, p.signature = q.signature →
      (s.inspection.isApplication p).toOption = (s.inspection.isApplication q).toOption) :
    Propagation.Judges s.graph s.inspection (Propagation.statusIn s.inspection s.subjects) where
  targets leaves := Propagation.statusIn_eq agreed
    (List.mem_append_right _ (CallGraph.target_mem_targets leaves))
  roots listed := Propagation.statusIn_eq agreed (List.mem_append_left _ listed)
  application {p} listed := by
    have owned : ∀ c ∈ s.inspection.program.classes.values, c.OwnsMethods :=
      fun c isClass => (assembled.tidy.made c isClass).ownsMethods
    rw [← Propagation.statusIn_eq agreed (List.mem_append_left _ listed),
      Inspection.isApplication_of_accepted (Program.accepted_of_listed owned listed)]
    unfold Inspection.answer
    split <;> simp [Except.toOption]

/-- The program of a session and its costs. -/
def ledger (s : Session) : Costs := { inspection := s.inspection, store := s.store }

/-- The session after a run of the propagation. -/
def propagated (s : Session) : Session :=
  let final := Propagation.run s.graph s.ledger
  { s with
    inspection := final.costs.inspection
    store := final.costs.store
    resolved := final.resolved }

theorem ledger_propagated (s : Session) :
    s.propagated.ledger = (Propagation.run s.graph s.ledger).costs := rfl

theorem graph_propagated (s : Session) : s.propagated.graph = s.graph := rfl

theorem store_propagated (s : Session) :
    s.propagated.store = (Propagation.run s.graph s.ledger).costs.store := rfl

theorem resolved_propagated (s : Session) :
    s.propagated.resolved = (Propagation.run s.graph s.ledger).resolved := rfl

/-- The command that runs the propagation is refused over the names of classes only. -/
theorem step_run (s : Session) : step .run s =
    match s.inspection.program.requireNames with
    | .error fault => (.error fault, { s with resolved := [] })
    | .ok _ => (.ok (.propagation s.propagated.sortedResolved s.propagated.store.propagated.entries),
        s.propagated) := by
  let cleared : Session := { s with resolved := [] }
  have clears : (modify fun s => { s with resolved := [] } : SessionM Unit) s = .ok () cleared := rfl
  have same : execute .run s = run s := rfl
  unfold step
  rw [same]
  unfold run
  rw [bind_of_ok clears]
  cases required : s.inspection.program.requireNames with
  | error fault =>
      have checked : SessionM.inspect Inspecting.requireNames cleared = .error fault cleared := by
        have asked : Inspecting.requireNames s.inspection = .error fault s.inspection :=
          Inspecting.ask_of_error required
        simp only [SessionM.inspect, cleared, asked]
      rw [bind_of_error checked]
  | ok done =>
      have checked : SessionM.inspect Inspecting.requireNames cleared = .ok done cleared := by
        have asked : Inspecting.requireNames s.inspection = .ok done s.inspection :=
          Inspecting.ask_of_ok required
        simp only [SessionM.inspect, cleared, asked]
      rw [bind_of_ok checked]
      rfl

/-- Running the propagation a second time changes nothing in the store and gives the same reply, whatever
    the graph is, whatever the store holds at first and whatever fails, if no two procedures of one
    signature that the propagation can come to differ in whether they are application code. -/
theorem run_again {s : Session} (assembled : s.inspection.program.Assembled)
    (agreed : ∀ p ∈ s.subjects, ∀ q ∈ s.subjects, p.signature = q.signature →
      (s.inspection.isApplication p).toOption = (s.inspection.isApplication q).toOption) :
    (step .run (step .run s).2).1 = (step .run s).1 ∧
      (step .run (step .run s).2).2.store = (step .run s).2.store := by
  cases required : s.inspection.program.requireNames with
  | error fault => simp only [step_run, required, and_self]
  | ok done =>
      have judged : Propagation.Judges s.graph s.ledger.inspection _ := judges assembled agreed
      have alike : s.inspection.Alike s.propagated.inspection := Propagation.alike_run judged
      have requiredAgain : s.propagated.inspection.program.requireNames = .ok done := by
        unfold Program.requireNames
        rw [alike.program.classes]
        exact required
      obtain ⟨sameStore, sameResolved⟩ := Propagation.run_run judged
      have store : s.propagated.propagated.store = s.propagated.store := by
        rw [store_propagated, ledger_propagated, graph_propagated, sameStore, store_propagated]
      have resolved : s.propagated.propagated.resolved = s.propagated.resolved := by
        rw [resolved_propagated, ledger_propagated, graph_propagated, sameResolved,
          resolved_propagated]
      simp only [step_run, required, requiredAgain, sortedResolved, store, resolved, and_self]

theorem run_again_of_sample :
    ∃ (g : CallGraph) (i : Inspection) (s : Session),
      CallGraph.build { program := Program.sample } = .ok g i ∧
      s = {
        inspection := {
          program := Program.sample
          failures := [⟨.body, .text "<app.Main: void work()>", "offline"⟩] }
        store := { propagated := .ofList [("<app.Main: void work()>", { static := 7, approx := 9 })] }
        graph := g } ∧
      s.inspection.program.Assembled ∧
      (∀ p ∈ s.subjects, ∀ q ∈ s.subjects, p.signature = q.signature →
        (s.inspection.isApplication p).toOption = (s.inspection.isApplication q).toOption) ∧
      (step .run s).2.store.propagated.values.map (fun r => (r.static, r.approx)) =
        [(7, 9), (16, 110), (36, 224)] ∧
      (step .run (step .run s).2).2.store = (step .run s).2.store := by
  obtain ⟨g, i, s, built, isSession, agreed, records⟩ :
      ∃ g i s, CallGraph.build { program := Program.sample } = .ok g i ∧
        s = {
          inspection := {
            program := Program.sample
            failures := [⟨.body, .text "<app.Main: void work()>", "offline"⟩] }
          store := {
            propagated := .ofList [("<app.Main: void work()>", { static := 7, approx := 9 })] }
          graph := g } ∧
        (∀ p ∈ s.subjects, ∀ q ∈ s.subjects, p.signature = q.signature →
          (s.inspection.isApplication p).toOption = (s.inspection.isApplication q).toOption) ∧
        (step .run s).2.store.propagated.values.map (fun r => (r.static, r.approx)) =
          [(7, 9), (16, 110), (36, 224)] :=
    ⟨_, _, _, by cbv, rfl, by decide, by cbv⟩
  have loaded : [Program.sampleClass].foldlM Program.addClass {} = .ok Program.sample := by cbv
  have assembled : s.inspection.program.Assembled := by
    rw [isSession]
    refine .addClasses (.empty {}) (fun c isClass => ?_) loaded
    cases List.mem_singleton.mp isClass
    exact ⟨Program.sampleClass, Program.sampleClass.methods, by cbv⟩
  exact ⟨g, i, s, built, isSession, assembled, agreed, records, (run_again assembled agreed).2⟩

/-- The main procedure and one of an application class call a signature that this class shares with a
    library class. -/
def sharedDocument : Json :=
  let calls (subsignature : Text) : Json :=
    .obj [("subsignature", .text subsignature),
      ("statements", .arr [.obj [("invoke", .text "<app.A: b.C: void f()>")]])]
  .obj [("classes", .arr [
    .obj [("name", .text "app.Main"), ("methods", .arr [calls "void main()"])],
    .obj [("name", .text "app.A"), ("methods", .arr [calls "b.C: void f()"])],
    .obj [("name", .text "app.A: b.C"), ("methods", .arr [
      .obj [("subsignature", .text "void f()"), ("statements", .arr [])]])]])]

/-- The call of the main procedure leads to library code. The first run folds in what was counted under
    its signature and the second one what the first one has propagated for the application class. -/
theorem shared_signature_changes_second_run :
    ∃ (program : Program) (log : Log) (s : Session),
      Description.program { libraryPrefixes := ["app.A: "] } sharedDocument #[] = .ok program log ∧
      (step (.extractAll none) (step .build { inspection := { program } }).2).2 = s ∧
      (step .run s).2.store.propagated.values.map (fun r => (r.static, r.approx)) =
        [(2, 2), (2, 2)] ∧
      (step .run (step .run s).2).2.store.propagated.values.map (fun r => (r.static, r.approx)) =
        [(3, 3), (2, 2)] ∧
      (step .run (step .run s).2).2.store ≠ (step .run s).2.store := by
  obtain ⟨program, log, s, read, counted, once, twice⟩ :
      ∃ program log s,
        Description.program { libraryPrefixes := ["app.A: "] } sharedDocument #[] = .ok program log ∧
        (step (.extractAll none) (step .build { inspection := { program } }).2).2 = s ∧
        (step .run s).2.store.propagated.values.map (fun r => (r.static, r.approx)) =
          [(2, 2), (2, 2)] ∧
        (step .run (step .run s).2).2.store.propagated.values.map (fun r => (r.static, r.approx)) =
          [(3, 3), (2, 2)] :=
    ⟨_, _, _, by cbv, by cbv, by cbv, by cbv⟩
  refine ⟨program, log, s, read, counted, once, twice, fun same => ?_⟩
  rw [same] at twice
  cases once.symm.trans twice

end Session

end CallWeight
