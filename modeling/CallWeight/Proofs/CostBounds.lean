import CallWeight.Proofs.Accounts
import CallWeight.Proofs.Returning

/-! # Bounds for propagated costs

On a call cycle the propagated cost of a procedure depends on where the propagation entered the cycle,
but it never counts a call that does not exist: a value that is folded in after `k` folds is at most
what following calls through fewer than `k` edges gives. Since every edge is folded in at most once,
following calls through as many edges as the graph has bounds all propagated costs from above. From
below, every call folds in at least the local cost of its target.
-/

namespace CallWeight

/-- Whether an analysis looks into a procedure: it is application code and has a body. -/
def Config.looksInto (config : Config) (p : Procedure) : Bool :=
  config.isApplicationClass p.declaringClass && p.body.isSome

namespace CallGraph

/-- The cost of a procedure with its calls followed through at most the given number of edges. What an
    analysis does not look into costs nothing. -/
def costWithin (g : CallGraph) (config : Config) (c : Counter) : Nat → Procedure → Nat
  | 0, p => if config.looksInto p then p.localCount c else 0
  | n + 1, p =>
      if config.looksInto p then
        p.localCount c + (p.callSites.map fun position =>
          c.weight (p.loops.depthOf position) *
            ((g.edgesOutOf (p.site position)).map fun e => costWithin g config c n e.target).sum).sum
      else 0

/-- The sum over the calls of a procedure, call site by call site. -/
theorem callSum_calls (g : CallGraph) (c : Counter) (value : Procedure → Nat) (p : Procedure) :
    Progress.callSum c value (p.calls g) = (p.callSites.map fun position =>
      c.weight (p.loops.depthOf position) *
        ((g.edgesOutOf (p.site position)).map fun e => value e.target).sum).sum := by
  have pairs : Progress.callSum c value (p.calls g) =
      (((p.calls g).map fun call => (call.depth, call.target)).map
        fun pair => c.weight pair.1 * value pair.2).sum := by
    simp [Progress.callSum, Function.comp_def]
  rw [pairs, Procedure.map_calls]
  induction p.callSites with
  | nil => rfl
  | cons position rest ih =>
      simp only [List.flatMap_cons, List.map_append, List.sum_append, ih, List.map_map,
        List.map_cons, List.sum_cons, Function.comp_def, List.sum_map_mul_left]

section Levels

variable {g : CallGraph} {program : Program} {c : Counter} {p : Procedure}

theorem costWithin_of_library (isLibrary : ¬ program.Counts p) (n : Nat) :
    g.costWithin program.config c n p = 0 := by
  have notInto : program.config.looksInto p = false := by
    simp [Config.looksInto, Bool.eq_false_iff.mpr isLibrary]
  cases n <;> simp [costWithin, notInto]

theorem costWithin_zero (counts : program.Counts p) :
    g.costWithin program.config c 0 p = p.localCount c := by
  have isApplication : program.config.isApplicationClass p.declaringClass = true := counts
  cases hasBody : p.body with
  | none =>
      simp [costWithin, Config.looksInto, hasBody, Procedure.localCount,
        Procedure.callSites_eq_nil hasBody]
  | some body => simp [costWithin, Config.looksInto, hasBody, isApplication]

theorem costWithin_succ (counts : program.Counts p) (n : Nat) :
    g.costWithin program.config c (n + 1) p =
      p.localCount c + Progress.callSum c (g.costWithin program.config c n) (p.calls g) := by
  have isApplication : program.config.isApplicationClass p.declaringClass = true := counts
  rw [callSum_calls]
  cases hasBody : p.body with
  | none =>
      simp [costWithin, Config.looksInto, hasBody, Procedure.localCount,
        Procedure.callSites_eq_nil hasBody]
  | some body => simp [costWithin, Config.looksInto, hasBody, isApplication]

theorem costWithin_le_succ (n : Nat) (p : Procedure) :
    g.costWithin program.config c n p ≤ g.costWithin program.config c (n + 1) p := by
  by_cases counts : program.Counts p
  · induction n generalizing p with
    | zero =>
        rw [costWithin_zero counts, costWithin_succ counts]
        exact Nat.le_add_right _ _
    | succ n ih =>
        rw [costWithin_succ counts, costWithin_succ counts]
        refine Nat.add_le_add_left (Progress.callSum_le fun call _ => ?_) _
        by_cases targetCounts : program.Counts call.target
        · exact ih call.target targetCounts
        · simp [costWithin_of_library targetCounts]
  · simp [costWithin_of_library counts]

theorem costWithin_mono {m n : Nat} (fewer : m ≤ n) (p : Procedure) :
    g.costWithin program.config c m p ≤ g.costWithin program.config c n p :=
  monotone_nat_of_le_succ (fun n => costWithin_le_succ n p) fewer

/-- What following calls through fewer than the given number of edges gives. -/
def costBelow (g : CallGraph) (config : Config) (c : Counter) : Nat → Procedure → Nat
  | 0, _ => 0
  | n + 1, p => g.costWithin config c n p

theorem costWithin_eq (counts : program.Counts p) (n : Nat) :
    g.costWithin program.config c n p =
      p.localCount c + Progress.callSum c (g.costBelow program.config c n) (p.calls g) := by
  cases n with
  | zero => simp [costWithin_zero counts, costBelow, Progress.callSum]
  | succ n => exact costWithin_succ counts n

theorem costBelow_le_succ (n : Nat) (p : Procedure) :
    g.costBelow program.config c n p ≤ g.costBelow program.config c (n + 1) p := by
  cases n with
  | zero => exact Nat.zero_le _
  | succ n => exact costWithin_le_succ n p

end Levels

end CallGraph

/-! ## Counting the folds -/

namespace Procedure

theorem nodup_callSites (p : Procedure) : p.callSites.Nodup := by
  have positions : (p.statements.zipIdx.map (·.2)).Nodup := by
    rw [List.zipIdx_map_snd]
    exact List.nodup_range'
  exact positions.sublist (List.filter_sublist.map _)

theorem length_calls (p : Procedure) {g : CallGraph} (indexed : g.Indexed) :
    (p.calls g).length = ((p.callSites.map p.site).map fun site =>
      (g.edges.filter (·.site = site)).length).sum := by
  have lengths := congrArg List.length (p.map_calls g)
  simpa [List.length_flatMap, indexed.outOf, Function.comp_def] using lengths

/-- Procedures with different signatures have no statement in common. -/
theorem signature_eq_of_site {p q : Procedure} {m n : Nat} (same : p.site m = q.site n) :
    p.signature = q.signature := by
  simp only [site, Site.mk.injEq] at same
  simp only [signature, same.2.1, same.2.2]

end Procedure

theorem CallGraph.sum_at_site (here : Site) (sites : List Site) :
    (sites.map fun site => if here = site then 1 else 0).sum = sites.count here := by
  induction sites with
  | nil => rfl
  | cons site rest ih =>
      by_cases same : here = site
      · subst same
        simp [ih, Nat.add_comm]
      · simp [same, Ne.symm same, ih]

/-- An edge leaves only one site. -/
theorem CallGraph.sum_edges_le (edges : List CallEdge) {sites : List Site} (distinct : sites.Nodup) :
    (sites.map fun site => (edges.filter (·.site = site)).length).sum ≤ edges.length := by
  induction edges with
  | nil => simp
  | cons e rest ih =>
      have once := sum_at_site e.site sites ▸ List.nodup_iff_count_le_one.mp distinct e.site
      have split : ∀ site, ((e :: rest).filter (·.site = site)).length =
          (if e.site = site then 1 else 0) + (rest.filter (·.site = site)).length := by
        intro site
        by_cases here : e.site = site <;> simp [here, Nat.add_comm]
      simp only [split, List.sum_map_add, List.length_cons]
      omega

/-- All calls of different procedures together are at most the edges. -/
theorem CallGraph.sum_calls_le {g : CallGraph} (indexed : g.Indexed) {started : List Procedure}
    (distinct : (started.map (·.signature)).Nodup) :
    (started.map fun p => (p.calls g).length).sum ≤ g.edges.length := by
  have sites : (started.flatMap fun p => p.callSites.map p.site).Nodup := by
    refine List.nodup_flatMap.mpr ⟨fun p _ => p.nodup_callSites.map ?_, ?_⟩
    · intro m n same
      exact congrArg Site.position same
    · refine (List.pairwise_map.mp distinct).imp fun {p q} different site inP inQ => ?_
      obtain ⟨m, -, rfl⟩ := List.mem_map.mp inP
      obtain ⟨n, -, same⟩ := List.mem_map.mp inQ
      exact different (Procedure.signature_eq_of_site same.symm)
  have lengths : (started.map fun p => (p.calls g).length).sum =
      ((started.flatMap fun p => p.callSites.map p.site).map fun site =>
        (g.edges.filter (·.site = site)).length).sum := by
    simp only [Procedure.length_calls _ indexed, List.map_flatMap]
    rw [List.flatMap_def, List.sum_flatten, List.map_map]
    rfl
  rw [lengths]
  exact sum_edges_le g.edges sites

namespace Progress

variable {g : CallGraph} {program : Program} {c : Counter} {s t : Progress g}

/-- How many folds were made: as many as the procedures that were started have calls, less the calls
    that still wait. -/
structure Numbered (s : Progress g) (started : List Procedure) (folds : Nat) : Prop where
  resolved : started.map (·.signature) = s.resolved
  distinct : s.resolved.Nodup
  total : folds + (s.stack.map (·.pending.length)).sum =
    (started.map fun p => (p.calls g).length).sum

/-- A value that was folded in is at most what following calls through fewer edges than there were
    folds gives. -/
def Bounded (program : Program) (c : Counter) (s : Progress g) : Prop :=
  ∃ started folds, s.Numbered started folds ∧
    s.Ledger program c fun _ call value => value ≤ g.costBelow program.config c folds call.target

theorem Accounted.le_costWithin {p : Procedure} {folds : Nat}
    (accounted : s.Accounted c
      (fun _ call value => value ≤ g.costBelow program.config c folds call.target) p)
    (counts : program.Counts p) {r : CostRecord} (found : s.records p.signature = some r) :
    c.of r ≤ g.costWithin program.config c folds p := by
  obtain ⟨calls, all, ⟨own, recorded, sum⟩, values⟩ := accounted
  cases found.symm.trans recorded
  rw [sum, CallGraph.costWithin_eq counts]
  exact Int.ofNat_le.mpr (Nat.add_le_add_left (foldedSum_le all values) _)

theorem Bounded.step (fits : g.Fits program) (bounded : s.Bounded program c)
    (step : Step program s t) : t.Bounded program c := by
  obtain ⟨started, folds, numbered, ledger⟩ := bounded
  cases step with
  | enter known counts isNew due =>
      rename_i p
      refine ⟨p :: started, folds, ⟨?_, ?_, ?_⟩, ledger.enter known counts isNew⟩
      · simp [numbered.resolved]
      · exact List.nodup_cons.mpr ⟨isNew, numbered.distinct⟩
      · have total := numbered.total
        simp only [List.map_cons, List.sum_cons]
        omega
  | fold onTop recorded offered =>
      refine ⟨started, folds + 1, ⟨numbered.resolved, numbered.distinct, ?_⟩,
        ledger.fold fits onTop recorded offered
          (fun old => Nat.le_trans old (CallGraph.costBelow_le_succ _ _)) ?_
          fun _ => Nat.zero_le _⟩
      · have total := numbered.total
        simp only [onTop, List.map_cons, List.sum_cons, List.length_cons] at total ⊢
        omega
      · -- The record of the target was made by the folds before this one.
        intro value isResolved found isValue
        have targetKnown := ledger.knows_target fits onTop
        have bound := (ledger.accounts targetKnown isResolved).le_costWithin
          (ledger.counts targetKnown isResolved) found
        rw [isValue] at bound
        exact Int.ofNat_le.mp bound
  | finish onTop =>
      refine ⟨started, folds, ⟨numbered.resolved, numbered.distinct, ?_⟩, ledger.finish onTop⟩
      simpa [onTop] using numbered.total

/-- Every value that was folded in is at least the local cost of the target. -/
def FoldsLocals (program : Program) (c : Counter) (s : Progress g) : Prop :=
  s.Ledger program c fun _ call value => g.costWithin program.config c 0 call.target ≤ value

theorem FoldsLocals.step (fits : g.Fits program) (ledger : s.FoldsLocals program c)
    (step : Step program s t) : t.FoldsLocals program c := by
  cases step with
  | enter known counts isNew due => exact ledger.enter known counts isNew
  | fold onTop recorded offered =>
      refine ledger.fold fits onTop recorded offered id ?_ fun isLibrary => ?_
      · intro value isResolved found isValue
        have targetKnown := ledger.knows_target fits onTop
        obtain ⟨calls, -, ⟨r, recorded, sum⟩, -⟩ := ledger.accounts targetKnown isResolved
        cases found.symm.trans recorded
        rw [CallGraph.costWithin_zero (ledger.counts targetKnown isResolved)]
        omega
      · rw [CallGraph.costWithin_of_library isLibrary]
  | finish onTop => exact ledger.finish onTop

theorem Bounded.none : (.none : Progress g).Bounded program c :=
  ⟨[], 0, ⟨rfl, .nil, rfl⟩, .none⟩

/-- In the end no more folds were made than the graph has edges. -/
theorem Bounded.le_final (fits : g.Fits program) (bounded : s.Bounded program c)
    (idle : s.stack = []) {p : Procedure} (known : program.Knows p)
    (isResolved : p.signature ∈ s.resolved) {r : CostRecord}
    (found : s.records p.signature = some r) :
    c.of r ≤ g.costWithin program.config c g.edges.length p := by
  obtain ⟨started, folds, numbered, ledger⟩ := bounded
  have total : folds = (started.map fun p => (p.calls g).length).sum := by
    simpa [idle] using numbered.total
  have atMost : folds ≤ g.edges.length :=
    total ▸ CallGraph.sum_calls_le fits.indexed (numbered.resolved ▸ numbered.distinct)
  have bound := (ledger.accounts known isResolved).le_costWithin
    (ledger.counts known isResolved) found
  exact Int.le_trans bound (Int.ofNat_le.mpr (CallGraph.costWithin_mono atMost p))

/-- In the end every call has folded in its target. -/
theorem FoldsLocals.final_le (ledger : s.FoldsLocals program c) (idle : s.stack = [])
    {p : Procedure} (known : program.Knows p) (isResolved : p.signature ∈ s.resolved)
    {r : CostRecord} (found : s.records p.signature = some r) :
    (g.costWithin program.config c 1 p : Int) ≤ c.of r := by
  obtain ⟨folds, all, ⟨own, recorded, sum⟩, values⟩ := ledger.accounts known isResolved
  cases found.symm.trans recorded
  rw [idle, pendingIn, List.append_nil] at all
  rw [sum, CallGraph.costWithin_succ (ledger.counts known isResolved)]
  exact Int.ofNat_le.mpr (Nat.add_le_add_left (le_foldedSum all values) _)

end Progress

namespace Analysis

open Progress

/-- On any call graph, recursive or not, the propagated cost of an application procedure is at least
    its local cost plus the local costs of its direct callees, and at most its cost with calls followed
    through as many edges as the graph has. -/
theorem propagated_between {i : Inspection} (built : i.program.Built) (noFailures : i.failures = []) :
    Ensures i fun a => ∀ p ∈ i.program.applicationProcedures,
      ∃ r, a.store.propagated.get? p.signature = some r ∧
        ∀ c : Counter,
          (a.graph.costWithin i.program.config c 1 p : Int) ≤ c.of r ∧
            c.of r ≤ a.graph.costWithin i.program.config c a.graph.edges.length p := by
  refine ensures built noFailures fun {a start counted} phases p listed => ?_
  obtain ⟨s, steps, idle, resolved, records⟩ := phases.exists_final
  obtain ⟨known, isResolved⟩ := resolved p listed
  have fits := phases.fits
  have lower (c : Counter) : s.FoldsLocals start.program c :=
    holds_of_steps .none (FoldsLocals.step fits) steps
  have upper (c : Counter) : s.Bounded start.program c :=
    holds_of_steps .none (Bounded.step fits) steps
  obtain ⟨r, recorded⟩ := (lower .static).exists_record known isResolved
  refine ⟨r, records ▸ recorded, fun c => ?_⟩
  rw [← phases.later.program.config]
  exact ⟨(lower c).final_le idle known isResolved recorded,
    (upper c).le_final fits idle known isResolved recorded⟩

theorem figures_of_spin {a : Analysis} {after : Inspection}
    (returned : ofProgram { program := .sample } = .ok a after) :
    (a.store.propagated.get? Program.sampleSpin.signature).map (fun r => (r.static, r.approx)) =
        some (12, 48) ∧
      (a.graph.costWithin {} .static 1 Program.sampleSpin = 6 ∧
        a.graph.costWithin {} .static a.graph.edges.length Program.sampleSpin = 30) ∧
      a.graph.costWithin {} .approx 1 Program.sampleSpin = 15 ∧
        a.graph.costWithin {} .approx a.graph.edges.length Program.sampleSpin = 111 := by
  apply of_evaluates _ returned
  cbv

/-- The method of the small program that calls itself. Its own calls are in no loop, but one of them is
    of a method that calls in a loop. -/
theorem propagated_between_of_spin :
    ∃ a after, ofProgram { program := .sample } = .ok a after ∧
      ∃ r, a.store.propagated.get? Program.sampleSpin.signature = some r ∧
        (∀ c : Counter,
          (a.graph.costWithin {} c 1 Program.sampleSpin : Int) ≤ c.of r ∧
            c.of r ≤ a.graph.costWithin {} c a.graph.edges.length Program.sampleSpin) ∧
        (a.graph.costWithin {} .static 1 Program.sampleSpin = 6 ∧ r.static = 12 ∧
          a.graph.costWithin {} .static a.graph.edges.length Program.sampleSpin = 30) ∧
        a.graph.costWithin {} .approx 1 Program.sampleSpin = 15 ∧ r.approx = 48 ∧
          a.graph.costWithin {} .approx a.graph.edges.length Program.sampleSpin = 111 := by
  obtain ⟨returns, between⟩ := propagated_between
    (i := { program := .sample }) Program.built_sample rfl
  obtain ⟨a, after, returned⟩ := returns Program.readable_sample
  obtain ⟨r, found, bounds⟩ := between returned Program.sampleSpin
    (by simp [Program.applicationProcedures_sample])
  obtain ⟨counters, ⟨lower, upper⟩, lowerApprox, upperApprox⟩ := figures_of_spin returned
  rw [found, Option.map_some, Option.some_inj, Prod.mk.injEq] at counters
  exact ⟨a, after, returned, r, found, bounds, ⟨lower, counters.1, upper⟩,
    lowerApprox, counters.2, upperApprox⟩

end Analysis

end CallWeight
