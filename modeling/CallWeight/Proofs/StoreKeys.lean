import CallWeight.Proofs.WalkSums

/-! # What is in the store after an analysis

A propagation enters the application procedures and whatever application code they call, and it looks
up the library code that they call. So the three partitions of the store have exactly these keys: the
local one the application procedures, the propagated one these and the application code that they
call, and the external one the library code that they call. Nothing that a propagation does is worth
an issue, so the issues of an analysis are those of its augmentation and those of procedures without a
body.
-/

namespace CallWeight

namespace Procedure

variable {p : Procedure} {g : CallGraph}

theorem exists_call {e : CallEdge} (isCall : e ∈ p.callEdges g) :
    ∃ call ∈ p.calls g, call.target = e.target := by
  obtain ⟨position, isSite, leaves⟩ := List.mem_flatMap.mp isCall
  have listed : (p.loops.depthOf position, e.target) ∈
      (p.calls g).map fun call => (call.depth, call.target) := by
    rw [map_calls]
    exact List.mem_flatMap.mpr ⟨position, isSite, List.mem_map_of_mem leaves⟩
  obtain ⟨call, isPending, same⟩ := List.mem_map.mp listed
  exact ⟨call, isPending, (Prod.mk.inj same).2⟩

theorem isSome_body_of_call {call : PendingCall g} (isCall : call ∈ p.calls g) :
    p.body.isSome := by
  obtain ⟨position, isSite, -⟩ := mem_calls isCall
  by_contra noBody
  rw [callSites_eq_nil (Option.not_isSome_iff_eq_none.mp noBody)] at isSite
  cases isSite

end Procedure

namespace Propagation

open Progress (pendingIn)

variable {g : CallGraph} {start : Inspection} {s t : Propagation g}

/-- Whether a target has been taken care of: application code is resolved, and library code has an
    external record. -/
def Settles (start : Inspection) (s : Propagation g) (target : Procedure) : Prop :=
  (start.program.Counts target → target.signature ∈ s.resolved) ∧
    (¬ start.program.Counts target → (s.costs.store.external.get? target.signature).isSome)

theorem Settles.mono {target : Procedure} (settles : s.Settles start target)
    (resolved : s.resolved ⊆ t.resolved)
    (external : ∀ signature, (s.costs.store.external.get? signature).isSome →
      (t.costs.store.external.get? signature).isSome) : t.Settles start target :=
  ⟨fun counts => resolved (settles.1 counts), fun isLibrary => external _ (settles.2 isLibrary)⟩

/-- Where the keys of the store come from, and which ones are still to come. -/
structure Keyed (start : Inspection) (s : Propagation g) : Prop where
  frames : ∀ frame ∈ s.stack, frame.pending ⊆ frame.procedure.calls g
  resolved : ∀ signature ∈ s.resolved, ∃ p, p.signature = signature ∧ start.program.Counts p ∧
    (p ∈ start.program.applicationProcedures ∨
      ∃ q ∈ start.program.applicationProcedures, ∃ call ∈ q.calls g, call.target = p)
  external : ∀ signature, (s.costs.store.external.get? signature).isSome →
    ∃ q ∈ start.program.applicationProcedures, ∃ call ∈ q.calls g,
      ¬ start.program.Counts call.target ∧ call.target.signature = signature
  settled : ∀ {p}, start.program.Knows p → p.signature ∈ s.resolved → ∀ call ∈ p.calls g,
    call ∈ pendingIn p.signature s.stack ∨ s.Settles start call.target

section Moves

variable (reliable : start.Reliable) (ready : Ready start s) (keyed : Keyed start s)

include reliable ready

/-- Whoever is resolved and calls something is application code of the program. -/
theorem mem_applicationProcedures_of_call {p : Procedure} {call : PendingCall g}
    (known : start.program.Knows p) (isResolved : p.signature ∈ s.resolved)
    (isCall : call ∈ p.calls g) : p ∈ start.program.applicationProcedures :=
  reliable.coherent.mem_applicationProcedures reliable.named known (ready.counts known isResolved)
    (Procedure.isSome_body_of_call isCall)

include keyed

omit reliable ready in
theorem Keyed.finish {p : Procedure} {rest : List (Frame g)}
    (onTop : s.stack = { procedure := p, pending := [] } :: rest) :
    Keyed start { s with stack := rest } := by
  refine { keyed with frames := fun frame inRest => ?_, settled := fun {q} known isResolved => ?_ }
  · exact keyed.frames frame (onTop ▸ List.mem_cons_of_mem _ inRest)
  · intro call isCall
    rcases keyed.settled known isResolved call isCall with waits | settled
    · rw [onTop, pendingIn] at waits
      split at waits
      · cases waits
      · exact .inl waits
    · exact .inr settled

theorem Keyed.fold {p : Procedure} {call : PendingCall g} {pending : List (PendingCall g)}
    {rest : List (Frame g)}
    (onTop : s.stack = { procedure := p, pending := call :: pending } :: rest)
    (isReady : call.target.signature ∈ s.resolved ∨ ¬ start.program.Counts call.target) :
    let t : Propagation g :=
      { s with costs := foldCall p call s.costs, stack := { procedure := p, pending } :: rest }
    Keyed start t ∧ t.costs.inspection.issues = s.costs.inspection.issues := by
  obtain ⟨known, isResolved, targetsKnown⟩ := ready.frames _ (onTop ▸ List.mem_cons_self)
  have waiting := keyed.frames _ (onTop ▸ List.mem_cons_self)
  obtain ⟨isCall, others⟩ := List.cons_subset.mp waiting
  obtain ⟨own, found⟩ := Option.isSome_iff_exists.mp ((ready.recorded p.signature).mpr isResolved)
  obtain ⟨callee, i, external, -, folded, -, silent, -, keys⟩ := ready.foldCall_spec reliable
    (targetsKnown call List.mem_cons_self) found isReady
  have isExternal (signature : Text) :
      ((foldCall p call s.costs).store.external.get? signature).isSome ↔
        (s.costs.store.external.get? signature).isSome ∨
          ¬ start.program.Counts call.target ∧ call.target.signature = signature := by
    rw [folded]
    exact keys signature
  refine ⟨⟨?_, keyed.resolved, ?_, ?_⟩, by rw [folded]; exact silent⟩
  · intro frame inStack
    rcases List.mem_cons.mp inStack with rfl | inRest
    · exact others
    · exact keyed.frames frame (onTop ▸ List.mem_cons_of_mem _ inRest)
  · intro signature isKey
    rcases (isExternal signature).mp isKey with old | isTarget
    · exact keyed.external signature old
    · exact ⟨p, mem_applicationProcedures_of_call reliable ready known isResolved isCall, call,
        isCall, isTarget⟩
  · intro q qKnown qResolved other isOther
    rcases keyed.settled qKnown qResolved other isOther with waits | settles
    · rw [onTop, pendingIn] at waits
      rw [pendingIn]
      split at waits
      · rename_i same
        rw [if_pos same]
        rcases List.mem_cons.mp waits with rfl | inRest
        · -- The call is not pending any more, but its target has been taken care of.
          refine .inr ⟨fun counts => isReady.resolve_right (not_not_intro counts), ?_⟩
          exact fun isLibrary => (isExternal _).mpr (.inr ⟨isLibrary, rfl⟩)
        · exact .inl inRest
      · rename_i different
        rw [if_neg different]
        exact .inl waits
    · exact .inr (settles.mono (List.Subset.refl _) fun signature old =>
        (isExternal signature).mpr (.inl old))

theorem Keyed.enter {p : Procedure} (known : start.program.Knows p)
    (counts : start.program.Counts p) (due : s.Due start p) :
    let t : Propagation g :=
      { costs := (Propagation.enter (g := g) p s.costs).1
        resolved := p.signature :: s.resolved
        stack := (Propagation.enter p s.costs).2 ++ s.stack }
    Keyed start t ∧ t.costs.inspection.issues = s.costs.inspection.issues := by
  have counted : p.body.isSome → s.costs.store.locals.get? p.signature = some p.localRecord :=
    fun hasBody => ready.locals p
      (reliable.coherent.mem_applicationProcedures reliable.named known counts hasBody)
  obtain ⟨i, entered, -, silent⟩ := enter_spec (g := g) (ready.reliableNow reliable)
    (ready.later.program.knows known) counted
  simp only [entered]
  refine ⟨⟨?_, ?_, keyed.external, ?_⟩, silent⟩
  · intro frame inStack
    rcases List.mem_cons.mp inStack with rfl | inRest
    · exact List.Subset.refl _
    · exact keyed.frames frame inRest
  · intro signature isResolved
    rcases List.mem_cons.mp isResolved with rfl | old
    · refine ⟨p, rfl, counts, ?_⟩
      rcases due with ⟨-, listed⟩ | ⟨caller, call, pending, rest, onTop, isTarget⟩
      · exact .inl listed
      · obtain ⟨callerKnown, callerResolved, -⟩ := ready.frames _ (onTop ▸ List.mem_cons_self)
        have isCall := keyed.frames _ (onTop ▸ List.mem_cons_self) List.mem_cons_self
        exact .inr ⟨caller, mem_applicationProcedures_of_call reliable ready callerKnown
          callerResolved isCall, call, isCall, isTarget⟩
    · exact keyed.resolved signature old
  · intro q qKnown qResolved call isCall
    rw [List.singleton_append, pendingIn]
    by_cases same : p.signature = q.signature
    · rw [if_pos same, known.eq qKnown same]
      exact .inl isCall
    · rw [if_neg same]
      have old := (List.mem_cons.mp qResolved).resolve_left (Ne.symm same)
      exact (keyed.settled qKnown old call isCall).imp_right fun settles =>
        settles.mono (List.subset_cons_self _ _) fun _ => id

end Moves

theorem Keyed.moves (reliable : start.Reliable) (fits : g.Fits start.program)
    (ready : Ready start s) (keyed : Keyed start s)
    (moves : Relation.ReflTransGen (Move start) s t) :
    Ready start t ∧ Keyed start t ∧ t.costs.inspection.issues = s.costs.inspection.issues := by
  induction moves with
  | refl => exact ⟨ready, keyed, rfl⟩
  | tail _ move ih =>
      obtain ⟨readyNow, keyedNow, silent⟩ := ih
      have readyNext := (readyNow.move reliable fits move).1
      cases move with
      | finish onTop => exact ⟨readyNext, keyedNow.finish onTop, silent⟩
      | fold onTop isReady =>
          obtain ⟨keyedNext, silentNext⟩ := keyedNow.fold reliable readyNow onTop isReady
          exact ⟨readyNext, keyedNext, silentNext.trans silent⟩
      | enter known counts _ due =>
          obtain ⟨keyedNext, silentNext⟩ := keyedNow.enter reliable readyNow known counts due
          exact ⟨readyNext, keyedNext, silentNext.trans silent⟩

theorem keyed_begun {counted : Costs} (done : Counted start counted) :
    Keyed start (begun g counted) where
  frames := nofun
  resolved := nofun
  external signature isKey := by
    have noKeys : (begun g counted).costs.store.external = .empty := done.noneExternal
    simp [noKeys] at isKey
  settled := nofun

end Propagation

namespace Analysis.Phases

open Propagation

variable {i start : Inspection} {a : Analysis} {counted : Costs} (phases : Phases i a start counted)

include phases

theorem counts_iff (p : Procedure) : start.program.Counts p ↔ i.program.Counts p := by
  rw [Program.Counts, phases.later.program.config, Program.Counts]

/-- The store of an analysis is that of a propagation that has nothing left to do. -/
theorem exists_keyed :
    ∃ final : Propagation a.graph, Ready start final ∧ Keyed start final ∧ final.stack = [] ∧
      Relation.ReflTransGen (Progress.Step start.program) .none (.ofPropagation final) ∧
      (∀ p ∈ i.program.applicationProcedures, p.signature ∈ final.resolved ∧
        ∀ e ∈ p.callEdges a.graph, final.Settles start e.target) ∧
      a.store = final.costs.store ∧ a.issues = counted.inspection.issues := by
  obtain ⟨final, moves, idle, resolved, run⟩ :=
    run_moves phases.reliable phases.fits phases.tally
  obtain ⟨ready, keyed, silent⟩ := (keyed_begun phases.tally).moves phases.reliable phases.fits
    (ready_begun phases.tally) moves
  have steps := ((ready_begun phases.tally).moves phases.reliable phases.fits moves).2
  rw [ofPropagation_begun phases.tally] at steps
  refine ⟨final, ready, keyed, idle, steps, fun p listed => ?_, by rw [phases.store, run]; rfl, ?_⟩
  · rw [← phases.later.program.applicationProcedures] at listed
    have known := (phases.reliable.coherent.knows_of_application phases.reliable.named listed).1
    refine ⟨resolved p listed, fun e isEdge => ?_⟩
    obtain ⟨call, isCall, target⟩ := Procedure.exists_call isEdge
    rcases keyed.settled known (resolved p listed) call isCall with waits | settles
    · simp [idle, Progress.pendingIn] at waits
    · exact target ▸ settles
  · rw [phases.issues, run]
    exact silent

/-- A propagation adds no issue. -/
theorem issues_eq :
    a.issues = start.issues ++ i.program.applicationProcedures.flatMap (·.bodyIssues) := by
  obtain ⟨final, -, -, -, -, -, -, issues⟩ := phases.exists_keyed
  rw [issues, phases.tally.issues, phases.later.program.applicationProcedures]

/-- The local partition has the local costs of the application procedures. -/
theorem locals_iff {signature : Text} {r : CostRecord} :
    a.store.locals.get? signature = some r ↔
      ∃ p ∈ i.program.applicationProcedures, p.signature = signature ∧ r = p.localRecord := by
  obtain ⟨final, ready, -, -, -, -, store, -⟩ := phases.exists_keyed
  rw [store, ← phases.later.program.applicationProcedures]
  constructor
  · intro found
    obtain ⟨p, listed, rfl⟩ := ready.onlyLocals found
    exact ⟨p, listed, rfl, Option.some.inj (found.symm.trans (ready.locals p listed))⟩
  · rintro ⟨p, listed, rfl, rfl⟩
    exact ready.locals p listed

/-- The propagated partition has the application procedures and the application code they call. -/
theorem isSome_propagated_iff {signature : Text} :
    (a.store.propagated.get? signature).isSome ↔
      ∃ p, p.signature = signature ∧ i.program.Counts p ∧
        (p ∈ i.program.applicationProcedures ∨
          ∃ q ∈ i.program.applicationProcedures, ∃ e ∈ q.callEdges a.graph, e.target = p) := by
  obtain ⟨final, ready, keyed, -, -, done, store, -⟩ := phases.exists_keyed
  rw [store, ready.recorded]
  constructor
  · intro isResolved
    obtain ⟨p, rfl, isCounted, origin⟩ := keyed.resolved _ isResolved
    rw [phases.later.program.applicationProcedures] at origin
    refine ⟨p, rfl, (phases.counts_iff p).mp isCounted, origin.imp_right ?_⟩
    rintro ⟨q, listed, call, isCall, rfl⟩
    obtain ⟨e, isEdge, target⟩ := Procedure.exists_callEdge isCall
    exact ⟨q, listed, e, isEdge, target.symm⟩
  · rintro ⟨p, rfl, isCounted, listed | ⟨q, listed, e, isEdge, rfl⟩⟩
    · exact (done p listed).1
    · exact ((done q listed).2 e isEdge).1 ((phases.counts_iff _).mpr isCounted)

/-- The external partition has the library code that application procedures call. -/
theorem isSome_external_iff {signature : Text} :
    (a.store.external.get? signature).isSome ↔
      ∃ q ∈ i.program.applicationProcedures, ∃ e ∈ q.callEdges a.graph,
        e.target.signature = signature ∧ ¬ i.program.Counts e.target := by
  obtain ⟨final, ready, keyed, -, -, done, store, -⟩ := phases.exists_keyed
  rw [store]
  constructor
  · intro isKey
    obtain ⟨q, listed, call, isCall, isLibrary, rfl⟩ := keyed.external _ isKey
    obtain ⟨e, isEdge, target⟩ := Procedure.exists_callEdge isCall
    rw [phases.later.program.applicationProcedures] at listed
    rw [target, phases.counts_iff] at isLibrary
    exact ⟨q, listed, e, isEdge, congrArg _ target.symm, isLibrary⟩
  · rintro ⟨q, listed, e, isEdge, rfl, isLibrary⟩
    exact ((done q listed).2 e isEdge).2 (mt (phases.counts_iff _).mp isLibrary)

/-- The propagated cost of a procedure from which no recursion is reached is its full cost. -/
theorem of_propagated_eq {p : Procedure} (known : start.program.Knows p)
    (acyclic : a.graph.AcyclicFrom p.signature) {r : CostRecord}
    (found : a.store.propagated.get? p.signature = some r) (c : Counter) :
    c.of r = a.graph.fullCost i.program.config c p := by
  obtain ⟨final, ready, -, idle, steps, -, store, -⟩ := phases.exists_keyed
  have exact : Progress.Exact start.program c (.ofPropagation final) :=
    Progress.holds_of_steps .none (Progress.Exact.step phases.fits) steps
  rw [store] at found
  have isResolved := (ready.recorded p.signature).mp (Option.isSome_of_eq_some found)
  have finished : p.signature ∉ final.stack.map (·.procedure.signature) := by simp [idle]
  rw [← phases.later.program.config]
  exact exact.of_finished phases.fits known isResolved acyclic finished found

/-- What a call site leads to is known, so it is told apart as application or library code. -/
theorem knows_target {q : Procedure} {e : CallEdge} (isEdge : e ∈ q.callEdges a.graph) :
    start.program.Knows e.target := by
  obtain ⟨position, -, leaves⟩ := List.mem_flatMap.mp isEdge
  exact phases.fits.knows e (phases.fits.indexed.mem_edgesOutOf.mp leaves).1

theorem isApplication_iff {q : Procedure} {e : CallEdge} (isEdge : e ∈ q.callEdges a.graph)
    (answer : Bool) :
    i.program.isApplication e.target = .ok answer ↔
      i.program.config.isApplicationClass e.target.declaringClass = answer := by
  have answered := phases.reliable.coherent.isApplication_eq phases.reliable.named
    (phases.knows_target isEdge)
  simp only [Program.isApplication, phases.later.program.config] at answered ⊢
  rw [answered, Except.ok.injEq]

theorem mem_keys_locals {signature : Text} :
    signature ∈ a.store.locals.keys ↔
      ∃ p ∈ i.program.applicationProcedures, p.signature = signature := by
  rw [OrderedMap.mem_keys_iff, OrderedMap.contains, Option.isSome_iff_exists]
  simp only [phases.locals_iff]
  constructor
  · rintro ⟨r, p, listed, same, -⟩
    exact ⟨p, listed, same⟩
  · rintro ⟨p, listed, same⟩
    exact ⟨p.localRecord, p, listed, same, rfl⟩

theorem mem_keys_propagated {signature : Text} :
    signature ∈ a.store.propagated.keys ↔
      (∃ p ∈ i.program.applicationProcedures, p.signature = signature) ∨
        ∃ p ∈ i.program.applicationProcedures, ∃ e ∈ p.callEdges a.graph,
          i.program.isApplication e.target = .ok true ∧ e.target.signature = signature := by
  rw [OrderedMap.mem_keys_iff, OrderedMap.contains, phases.isSome_propagated_iff]
  constructor
  · rintro ⟨p, same, counts, listed | ⟨q, listed, e, isEdge, rfl⟩⟩
    · exact .inl ⟨p, listed, same⟩
    · exact .inr ⟨q, listed, e, isEdge, (phases.isApplication_iff isEdge true).mpr counts, same⟩
  · rintro (⟨p, listed, same⟩ | ⟨q, listed, e, isEdge, answered, same⟩)
    · have listedNow := listed
      rw [← phases.later.program.applicationProcedures] at listedNow
      have counts : start.program.Counts p :=
        (phases.reliable.coherent.knows_of_application phases.reliable.named listedNow).2
      exact ⟨p, same, (phases.counts_iff p).mp counts, .inl listed⟩
    · exact ⟨e.target, same, (phases.isApplication_iff isEdge true).mp answered,
        .inr ⟨q, listed, e, isEdge, rfl⟩⟩

theorem mem_keys_external {signature : Text} :
    signature ∈ a.store.external.keys ↔
      ∃ p ∈ i.program.applicationProcedures, ∃ e ∈ p.callEdges a.graph,
        i.program.isApplication e.target = .ok false ∧ e.target.signature = signature := by
  rw [OrderedMap.mem_keys_iff, OrderedMap.contains, phases.isSome_external_iff]
  refine exists_congr fun q => and_congr_right fun _ => exists_congr fun e =>
    and_congr_right fun isEdge => ?_
  rw [phases.isApplication_iff isEdge, Program.Counts, Bool.not_eq_true, and_comm]

/-- Library code that is called shares no signature with what was resolved. -/
theorem not_propagated_of_external {signature : Text} (isKey : signature ∈ a.store.external.keys) :
    signature ∉ a.store.propagated.keys := by
  obtain ⟨final, ready, -, -, -, -, store, -⟩ := phases.exists_keyed
  obtain ⟨q, listed, e, isEdge, answered, rfl⟩ := phases.mem_keys_external.mp isKey
  rw [OrderedMap.mem_keys_iff, OrderedMap.contains, store, ready.recorded]
  intro isResolved
  have counts := ready.counts (phases.knows_target isEdge) isResolved
  rw [phases.counts_iff, Program.Counts, (phases.isApplication_iff isEdge false).mp answered]
    at counts
  cases counts

theorem external_zero {signature : Text} {r : CostRecord}
    (found : a.store.external.get? signature = some r) : r.static = 0 ∧ r.approx = 0 := by
  obtain ⟨final, ready, -, -, -, -, store, -⟩ := phases.exists_keyed
  rw [store] at found
  exact ready.external found

theorem propagated_of_local {signature : Text} (isKey : signature ∈ a.store.locals.keys) :
    signature ∈ a.store.propagated.keys :=
  phases.mem_keys_propagated.mpr (.inl (phases.mem_keys_locals.mp isKey))

/-- The local records are what is counted in the bodies of the procedures. -/
theorem locals_eq_extracted (noFailures : i.failures = []) (built : i.program.Built) {p : Procedure}
    (listed : p ∈ i.program.applicationProcedures) :
    ∃ r after, CostRecord.extract p i = .ok r after ∧
      a.store.locals.get? p.signature = some r := by
  have named : i.program.Named := by
    have named := phases.reliable.named
    unfold Program.Named at named ⊢
    rwa [phases.later.program.classes] at named
  have reliable : i.Reliable := ⟨noFailures, built.coherent, named⟩
  obtain ⟨known, counts⟩ := reliable.coherent.knows_of_application named listed
  obtain ⟨after, extracted, -⟩ := reliable.extract known counts
  exact ⟨p.localRecord, after, extracted, phases.locals_iff.mpr ⟨p, listed, rfl, rfl⟩⟩

end Analysis.Phases

namespace Analysis

/-- The partitions of the store after an analysis. The local one has the application procedures, each
    with what is counted in its own body; the propagated one has these and the application code that
    their call sites lead to; the external one has the library code that their call sites lead to, at no
    cost. What is external is neither local nor propagated, and whatever is local is propagated. -/
theorem store_partitions {i : Inspection} (built : i.program.Built) (noFailures : i.failures = []) :
    Ensures i fun a =>
      (∀ signature, signature ∈ a.store.locals.keys ↔
        ∃ p ∈ i.program.applicationProcedures, p.signature = signature) ∧
      (∀ signature, signature ∈ a.store.propagated.keys ↔
        (∃ p ∈ i.program.applicationProcedures, p.signature = signature) ∨
          ∃ p ∈ i.program.applicationProcedures, ∃ e ∈ p.callEdges a.graph,
            i.program.isApplication e.target = .ok true ∧ e.target.signature = signature) ∧
      (∀ signature, signature ∈ a.store.external.keys ↔
        ∃ p ∈ i.program.applicationProcedures, ∃ e ∈ p.callEdges a.graph,
          i.program.isApplication e.target = .ok false ∧ e.target.signature = signature) ∧
      (∀ signature r, a.store.external.get? signature = some r → r.static = 0 ∧ r.approx = 0) ∧
      (∀ signature ∈ a.store.external.keys,
        signature ∉ a.store.locals.keys ∧ signature ∉ a.store.propagated.keys) ∧
      a.store.unpropagated = [] ∧
      ∀ p ∈ i.program.applicationProcedures, ∃ r after,
        CostRecord.extract p i = .ok r after ∧ a.store.locals.get? p.signature = some r := by
  refine ensures built noFailures fun {a start counted} phases => ?_
  refine ⟨fun _ => phases.mem_keys_locals, fun _ => phases.mem_keys_propagated,
    fun _ => phases.mem_keys_external, fun _ _ => phases.external_zero, ?_, ?_,
    fun _ => phases.locals_eq_extracted noFailures built⟩
  · intro signature isKey
    have notPropagated := phases.not_propagated_of_external isKey
    exact ⟨mt phases.propagated_of_local notPropagated, notPropagated⟩
  · refine List.filter_eq_nil_iff.mpr fun entry listed => ?_
    have isKey := phases.propagated_of_local (List.mem_map_of_mem listed)
    rw [OrderedMap.mem_keys_iff] at isKey
    simp [CostStore.isPropagated, isKey]

/-- The small program calls library code, which is external only; its own methods are local and
    propagated. -/
theorem store_partitions_of_sample :
    ∃ a after, ofProgram { program := .sample } = .ok a after ∧
      a.store.external.keys = ["<java.io.Console: void flush()>"] ∧
      (∀ signature ∈ a.store.external.keys, signature ∉ a.store.propagated.keys) ∧
      Program.sampleSpin.signature ∈ a.store.locals.keys ∧
      Program.sampleSpin.signature ∈ a.store.propagated.keys ∧
      a.store.unpropagated = [] := by
  obtain ⟨a, after, returned, external⟩ : ∃ a after,
      ofProgram { program := .sample } = .ok a after ∧
        a.store.external.keys = ["<java.io.Console: void flush()>"] :=
    ⟨_, _, by cbv, by cbv⟩
  obtain ⟨isLocal, isPropagated, -, -, apart, propagated, -⟩ :=
    (store_partitions (i := { program := .sample }) Program.built_sample rfl).2 returned
  have spins : ∃ p ∈ Program.sample.applicationProcedures,
      p.signature = Program.sampleSpin.signature :=
    ⟨Program.sampleSpin, by simp [Program.applicationProcedures_sample], rfl⟩
  exact ⟨a, after, returned, external, fun signature isKey => (apart signature isKey).2,
    (isLocal _).mpr spins, (isPropagated _).mpr (.inl spins), propagated⟩

end Analysis

end CallWeight
