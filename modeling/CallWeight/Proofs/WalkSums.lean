import CallWeight.Proofs.Components
import CallWeight.Proofs.CostBounds

/-! # Walk sums

Where no recursive procedure can be reached, a callee is done before it is folded in, so the
propagated cost of a procedure is what its calls really add up to: every walk along calls from the
procedure contributes the call sites of the procedure at its end, weighted by all loops that the walk
passes through.
-/

namespace CallWeight

/-! ## Away from recursion -/

namespace CallGraph

/-- Whether no recursive procedure can be reached from a signature. -/
def AcyclicFrom (g : CallGraph) (x : Text) : Prop :=
  ∀ cycle ∈ g.cycles, ∀ y ∈ cycle, ¬ g.Reaches x y

/-- The place of the component of a signature. -/
def rank (g : CallGraph) (x : Text) : Nat := g.components.findIdx (x ∈ ·)

theorem rank_le (g : CallGraph) (x : Text) : g.rank x ≤ g.components.length :=
  List.findIdx_le_length

theorem Indexed.component_at_rank {g : CallGraph} (indexed : g.Indexed) {x : Text}
    (isNode : x ∈ g.nodes.keys) : ∃ c, g.components[g.rank x]? = some c ∧ x ∈ c := by
  obtain ⟨i, c, atI, xIn⟩ := indexed.exists_component isNode
  have inside : g.rank x < g.components.length :=
    List.findIdx_lt_length_of_exists ⟨c, List.mem_of_getElem? atI, decide_eq_true xIn⟩
  exact ⟨_, List.getElem?_eq_getElem inside, of_decide_eq_true (List.findIdx_getElem (w := inside))⟩

namespace AcyclicFrom

variable {g : CallGraph} {x y : Text}

theorem of_calls (acyclic : g.AcyclicFrom x) (calls : g.Calls x y) : g.AcyclicFrom y :=
  fun cycle isCycle z inside onward =>
    acyclic cycle isCycle z inside (Relation.ReflTransGen.head calls onward)

theorem not_same_component (acyclic : g.AcyclicFrom x) (indexed : g.Indexed)
    (calls : g.Calls x y) {c : List Text} (isComponent : c ∈ g.components) (xIn : x ∈ c) :
    y ∉ c := fun yIn =>
  acyclic c (indexed.mem_cycles isComponent xIn yIn calls) x xIn .refl

theorem not_reaches_back (acyclic : g.AcyclicFrom x) (indexed : g.Indexed)
    (calls : g.Calls x y) : ¬ g.Reaches y x := by
  intro back
  obtain ⟨xNode, yNode⟩ := indexed.mem_nodes_of_calls calls
  obtain ⟨c, isComponent, xIn, yIn⟩ :=
    (indexed.same_component_iff xNode yNode).mpr ⟨.single calls, back⟩
  exact acyclic.not_same_component indexed calls isComponent xIn yIn

theorem rank_lt (acyclic : g.AcyclicFrom x) (indexed : g.Indexed) (calls : g.Calls x y) :
    g.rank y < g.rank x := by
  obtain ⟨xNode, yNode⟩ := indexed.mem_nodes_of_calls calls
  obtain ⟨c, atX, xIn⟩ := indexed.component_at_rank xNode
  obtain ⟨d, atY, yIn⟩ := indexed.component_at_rank yNode
  refine Nat.lt_of_le_of_ne (indexed.component_le_of_calls calls atX atY xIn yIn) fun same => ?_
  rw [same, atX] at atY
  cases atY
  exact acyclic.not_same_component indexed calls (List.mem_of_getElem? atX) xIn yIn

end AcyclicFrom

end CallGraph

/-! ## The edges of a procedure -/

theorem CallGraph.Indexed.nodup_edges {g : CallGraph} (indexed : g.Indexed) : g.edges.Nodup := by
  refine indexed.simple.imp ?_
  rintro e f apart rfl
  exact apart rfl rfl

namespace Procedure

/-- The edges out of the call sites of a procedure. -/
def callEdges (p : Procedure) (g : CallGraph) : List CallEdge :=
  p.callSites.flatMap fun position => g.edgesOutOf (p.site position)

variable {p : Procedure} {g : CallGraph}

theorem calls_of_callEdge {program : Program} (fits : g.Fits program) {e : CallEdge}
    (isCall : e ∈ p.callEdges g) : g.Calls p.signature e.target.signature := by
  obtain ⟨position, -, leaves⟩ := List.mem_flatMap.mp isCall
  obtain ⟨isEdge, atSite⟩ := fits.indexed.mem_edgesOutOf.mp leaves
  obtain ⟨position', ofSource⟩ := fits.sited e isEdge
  exact ⟨e, isEdge, signature_eq_of_site (ofSource.symm.trans atSite), rfl⟩

theorem exists_callEdge {call : PendingCall g} (isCall : call ∈ p.calls g) :
    ∃ e ∈ p.callEdges g, call.target = e.target := by
  obtain ⟨position, isSite, e, leaves, -, target⟩ := mem_calls isCall
  exact ⟨e, List.mem_flatMap.mpr ⟨position, isSite, leaves⟩, target⟩

theorem calls_of_call {program : Program} (fits : g.Fits program) {call : PendingCall g}
    (isCall : call ∈ p.calls g) : g.Calls p.signature call.target.signature := by
  obtain ⟨e, isEdge, target⟩ := exists_callEdge isCall
  exact target ▸ calls_of_callEdge fits isEdge

theorem nodup_callEdges (p : Procedure) (indexed : g.Indexed) : (p.callEdges g).Nodup := by
  refine List.nodup_flatMap.mpr ⟨fun position _ => ?_, ?_⟩
  · rw [indexed.outOf]
    exact indexed.nodup_edges.filter _
  · refine p.nodup_callSites.imp fun {m n} different e atM atN => different ?_
    have sameSite := (indexed.mem_edgesOutOf.mp atM).2.symm.trans (indexed.mem_edgesOutOf.mp atN).2
    exact congrArg Site.position sameSite

/-- A sum over the edges of a procedure, call site by call site. -/
theorem sum_callEdges (p : Procedure) (indexed : g.Indexed) (weight : Nat → Nat)
    (value : CallEdge → Nat) :
    ((p.callEdges g).map fun e => weight e.site.position * value e).sum =
      (p.callSites.map fun position =>
        weight position * ((g.edgesOutOf (p.site position)).map value).sum).sum := by
  unfold callEdges
  induction p.callSites with
  | nil => rfl
  | cons position rest ih =>
      have here : (g.edgesOutOf (p.site position)).map (fun e => weight e.site.position * value e) =
          (g.edgesOutOf (p.site position)).map fun e => weight position * value e := by
        refine List.map_congr_left fun e leaves => ?_
        rw [(indexed.mem_edgesOutOf.mp leaves).2]
        rfl
      simp only [List.flatMap_cons, List.map_append, List.sum_append, ih, here, List.map_cons,
        List.sum_cons, List.sum_map_mul_left]

end Procedure

/-! ## What is folded in away from recursion -/

namespace CallGraph

variable {g : CallGraph} {program : Program} {c : Counter}

/-- Following calls further than the rank of a procedure adds nothing. -/
theorem costWithin_succ_eq (fits : g.Fits program) {n : Nat} {p : Procedure}
    (acyclic : g.AcyclicFrom p.signature) (deep : g.rank p.signature ≤ n) :
    g.costWithin program.config c (n + 1) p = g.costWithin program.config c n p := by
  by_cases counts : program.Counts p
  · rw [costWithin_eq counts, costWithin_eq counts]
    refine congrArg _ (Progress.callSum_congr fun call isCall => ?_)
    have calls := Procedure.calls_of_call fits isCall
    have lower := acyclic.rank_lt fits.indexed calls
    -- A procedure of rank zero calls nothing, and elsewhere the rank of the target is smaller.
    cases n with
    | zero => omega
    | succ n => exact costWithin_succ_eq fits (acyclic.of_calls calls) (by omega)
  · rw [costWithin_of_library counts, costWithin_of_library counts]

/-- The cost of a procedure with its calls followed through as many edges as there are components. -/
def fullCost (g : CallGraph) (config : Config) (c : Counter) (p : Procedure) : Nat :=
  g.costWithin config c g.components.length p

theorem fullCost_eq (fits : g.Fits program) {p : Procedure} (acyclic : g.AcyclicFrom p.signature)
    (counts : program.Counts p) :
    g.fullCost program.config c p =
      p.localCount c + Progress.callSum c (g.fullCost program.config c) (p.calls g) := by
  unfold fullCost
  rw [← costWithin_succ_eq fits acyclic (g.rank_le _), costWithin_succ counts]

end CallGraph

namespace Progress

variable {g : CallGraph} {program : Program} {c : Counter} {s t : Progress g}

/-- Procedures from which no recursion is reached have folded in full costs only, and every unfinished
    procedure is reached from those below it. -/
structure Exact (program : Program) (c : Counter) (s : Progress g) : Prop where
  ledger : s.Ledger program c fun p call value =>
    g.AcyclicFrom p.signature → value = g.fullCost program.config c call.target
  chain : s.stack.Pairwise fun upper lower =>
    g.Reaches lower.procedure.signature upper.procedure.signature

namespace Exact

theorem none : (.none : Progress g).Exact program c := ⟨.none, .nil⟩

/-- A finished procedure has its full cost. -/
theorem of_finished (exact : s.Exact program c) (fits : g.Fits program) {p : Procedure}
    (known : program.Knows p) (isResolved : p.signature ∈ s.resolved)
    (acyclic : g.AcyclicFrom p.signature)
    (finished : p.signature ∉ s.stack.map (·.procedure.signature)) {r : CostRecord}
    (found : s.records p.signature = some r) : c.of r = g.fullCost program.config c p := by
  obtain ⟨folds, all, ⟨own, recorded, sum⟩, values⟩ := exact.ledger.accounts known isResolved
  cases found.symm.trans recorded
  rw [pendingIn_eq_nil finished, List.append_nil] at all
  rw [sum, CallGraph.fullCost_eq fits acyclic (exact.ledger.counts known isResolved),
    foldedSum_eq all fun fold isFold => values fold isFold acyclic]

theorem step (fits : g.Fits program) (exact : s.Exact program c) (step : Step program s t) :
    t.Exact program c := by
  obtain ⟨ledger, chain⟩ := exact
  cases step with
  | enter known counts isNew due =>
      refine ⟨ledger.enter known counts isNew, List.pairwise_cons.mpr ⟨fun lower below => ?_, chain⟩⟩
      rcases due with idle | ⟨caller, call, pending, rest, onTop, rfl⟩
      · simp [idle] at below
      · have calls := Procedure.calls_of_call fits
          (ledger.mem_calls_of_frame onTop List.mem_cons_self)
        rw [onTop] at below chain
        rcases List.mem_cons.mp below with rfl | inRest
        · exact .single calls
        · exact .tail ((List.pairwise_cons.mp chain).1 lower inRest) calls
  | fold onTop recorded offered =>
      rename_i p call pending rest own callee
      refine ⟨ledger.fold fits onTop recorded offered id ?_ fun isLibrary _ => ?_, ?_⟩
      · intro value isResolved found isValue acyclic
        have calls := Procedure.calls_of_call fits
          (ledger.mem_calls_of_frame onTop List.mem_cons_self)
        -- An unfinished target would reach its caller.
        have finished : call.target.signature ∉ s.stack.map (·.procedure.signature) := by
          intro unfinished
          obtain ⟨frame, onStack, same⟩ := List.mem_map.mp unfinished
          refine acyclic.not_reaches_back fits.indexed calls (same ▸ ?_)
          rw [onTop] at onStack chain
          rcases List.mem_cons.mp onStack with rfl | inRest
          · exact .refl
          · exact (List.pairwise_cons.mp chain).1 frame inRest
        have full := of_finished ⟨ledger, chain⟩ fits (ledger.knows_target fits onTop) isResolved
          (acyclic.of_calls calls) finished found
        exact Int.ofNat_inj.mp (isValue.symm.trans full)
      · exact (CallGraph.costWithin_of_library isLibrary _).symm
      · rw [onTop] at chain
        exact List.pairwise_cons.mpr (List.pairwise_cons.mp chain)
  | finish onTop =>
      rw [onTop] at chain
      exact ⟨ledger.finish onTop, (List.pairwise_cons.mp chain).2⟩

end Exact

end Progress

/-! ## Walks -/

theorem Counter.weight_add (c : Counter) (m n : Nat) : c.weight (m + n) = c.weight m * c.weight n := by
  cases c with
  | static => rfl
  | approx => exact Nat.pow_add _ _ _

namespace CallGraph

/-- Whether edges lead one after the other from a procedure into procedures that an analysis looks
    into. -/
def IsWalk (g : CallGraph) (config : Config) : Procedure → List CallEdge → Prop
  | _, [] => True
  | p, e :: rest => e ∈ p.callEdges g ∧ config.looksInto e.target ∧ g.IsWalk config e.target rest

def walkEnd : Procedure → List CallEdge → Procedure
  | p, [] => p
  | _, e :: rest => walkEnd e.target rest

/-- The loop depths of all statements that a walk leaves a procedure by. -/
def walkDepth : Procedure → List CallEdge → Nat
  | _, [] => 0
  | p, e :: rest => p.loops.depthOf e.site.position + walkDepth e.target rest

/-- What the call sites at the end of a walk count from its start. -/
def walkCount (c : Counter) (p : Procedure) (walk : List CallEdge) : Nat :=
  ((walkEnd p walk).callSites.map fun position =>
    c.weight (walkDepth p walk + (walkEnd p walk).loops.depthOf position)).sum

/-- The walks of at most the given length. -/
def walksWithin (g : CallGraph) (config : Config) : Nat → Procedure → List (List CallEdge)
  | 0, _ => [[]]
  | n + 1, p =>
      [] :: ((p.callEdges g).filter (config.looksInto ·.target)).flatMap fun e =>
        (g.walksWithin config n e.target).map (e :: ·)

variable {g : CallGraph} {config : Config} {c : Counter}

theorem walkCount_nil (c : Counter) (p : Procedure) : walkCount c p [] = p.localCount c := by
  simp [walkCount, walkEnd, walkDepth, Procedure.localCount]

theorem walkCount_cons (c : Counter) (p : Procedure) (e : CallEdge) (rest : List CallEdge) :
    walkCount c p (e :: rest) =
      c.weight (p.loops.depthOf e.site.position) * walkCount c e.target rest := by
  simp only [walkCount, walkEnd, walkDepth, Nat.add_assoc, c.weight_add (p.loops.depthOf _),
    List.sum_map_mul_left]

theorem walkCount_static (p : Procedure) (walk : List CallEdge) :
    walkCount .static p walk = (walkEnd p walk).callSites.length := by
  simp [walkCount, Counter.weight]

theorem mem_walksWithin {n : Nat} {p : Procedure} {walk : List CallEdge} :
    walk ∈ g.walksWithin config n p ↔ g.IsWalk config p walk ∧ walk.length ≤ n := by
  induction n generalizing p walk with
  | zero => cases walk <;> simp [walksWithin, IsWalk]
  | succ n ih =>
      cases walk with
      | nil => simp [walksWithin, IsWalk]
      | cons e rest => simp [walksWithin, IsWalk, ih, and_assoc]

theorem nodup_walksWithin (indexed : g.Indexed) (n : Nat) (p : Procedure) :
    (g.walksWithin config n p).Nodup := by
  induction n generalizing p with
  | zero => exact List.nodup_singleton _
  | succ n ih =>
      refine List.nodup_cons.mpr ⟨by simp, List.nodup_flatMap.mpr ⟨fun e _ => ?_, ?_⟩⟩
      · exact (ih e.target).map (List.cons_injective)
      · refine ((p.nodup_callEdges indexed).filter _).imp fun {e f} different walk alongE alongF => ?_
        obtain ⟨rest, -, rfl⟩ := List.mem_map.mp alongE
        obtain ⟨others, -, same⟩ := List.mem_map.mp alongF
        exact different (List.cons.inj same).1.symm

/-- What is not looked into may be left out. -/
theorem sum_looksInto (n : Nat) (weight : CallEdge → Nat) (edges : List CallEdge) :
    ((edges.filter (config.looksInto ·.target)).map fun e =>
        weight e * g.costWithin config c n e.target).sum =
      (edges.map fun e => weight e * g.costWithin config c n e.target).sum := by
  induction edges with
  | nil => rfl
  | cons e rest ih =>
      by_cases looks : config.looksInto e.target
      · simp [looks, ih]
      · have nothing : g.costWithin config c n e.target = 0 := by
          cases n <;> simp [costWithin, looks]
        simp [looks, ih, nothing]

theorem sum_walksWithin (indexed : g.Indexed) (n : Nat) {p : Procedure}
    (looks : config.looksInto p) :
    ((g.walksWithin config n p).map (walkCount c p)).sum = g.costWithin config c n p := by
  induction n generalizing p with
  | zero => simp [walksWithin, costWithin, looks, walkCount_nil]
  | succ n ih =>
      have along : ∀ e ∈ (p.callEdges g).filter (config.looksInto ·.target),
          (((g.walksWithin config n e.target).map (e :: ·)).map (walkCount c p)).sum =
            c.weight (p.loops.depthOf e.site.position) * g.costWithin config c n e.target := by
        intro e isEdge
        have looksOn := (List.mem_filter.mp isEdge).2
        simp only [List.map_map, Function.comp_def, walkCount_cons, List.sum_map_mul_left,
          ih looksOn]
      calc ((g.walksWithin config (n + 1) p).map (walkCount c p)).sum
        _ = p.localCount c + (((p.callEdges g).filter (config.looksInto ·.target)).map fun e =>
              (((g.walksWithin config n e.target).map (e :: ·)).map (walkCount c p)).sum).sum := by
            rw [walksWithin, List.map_cons, List.sum_cons, walkCount_nil, List.map_flatMap,
              List.flatMap_def, List.sum_flatten, List.map_map]
            rfl
        _ = p.localCount c + ((p.callEdges g).map fun e =>
              c.weight (p.loops.depthOf e.site.position) * g.costWithin config c n e.target).sum := by
            rw [List.map_congr_left along, sum_looksInto]
        _ = g.costWithin config c (n + 1) p := by
            rw [p.sum_callEdges indexed (fun position => c.weight (p.loops.depthOf position))
              fun e => g.costWithin config c n e.target]
            simp [costWithin, looks]

theorem IsWalk.length_le {program : Program} (fits : g.Fits program) {p : Procedure}
    {walk : List CallEdge} (acyclic : g.AcyclicFrom p.signature) (isWalk : g.IsWalk config p walk) :
    walk.length ≤ g.rank p.signature := by
  induction walk generalizing p with
  | nil => exact Nat.zero_le _
  | cons e rest ih =>
      obtain ⟨isEdge, -, onward⟩ := isWalk
      have calls := Procedure.calls_of_callEdge fits isEdge
      have shorter := ih (acyclic.of_calls calls) onward
      have lower := acyclic.rank_lt fits.indexed calls
      rw [List.length_cons]
      omega

end CallGraph

theorem CallGraph.mem_of_reaches {g : CallGraph} {closed : List Text} {x y : Text}
    (isClosed : ∀ e ∈ g.edges, e.source.signature ∈ closed → e.target.signature ∈ closed)
    (xIn : x ∈ closed) (reaches : g.Reaches x y) : y ∈ closed := by
  induction reaches with
  | refl => exact xIn
  | tail _ calls ih =>
      obtain ⟨e, isEdge, rfl, rfl⟩ := calls
      exact isClosed e isEdge ih

namespace Analysis

open CallGraph Progress

theorem away_of_main {a : Analysis} {after : Inspection}
    (returned : ofProgram { program := .sample } = .ok a after) :
    ∀ cycle ∈ a.cycles, ∀ q ∈ cycle, ¬ a.graph.Reaches Program.sampleMain.signature q := by
  let reached : List Text := ["<app.Main: void main()>", "<app.Main: void work()>",
    "<java.io.Console: void flush()>"]
  have closed : (a.cycles.all (fun cycle => cycle.all (· ∉ reached)) &&
      a.graph.edges.all fun e => e.source.signature ∉ reached || e.target.signature ∈ reached) = true := by
    apply of_evaluates _ returned
    cbv
  simp only [Bool.and_eq_true, List.all_eq_true, Bool.or_eq_true, decide_eq_true_eq] at closed
  intro cycle isCycle q inside reaches
  have isClosed : ∀ e ∈ a.graph.edges, e.source.signature ∈ reached → e.target.signature ∈ reached :=
    fun e isEdge fromInside => (closed.2 e isEdge).resolve_left (not_not_intro fromInside)
  exact closed.1 cycle isCycle q inside (mem_of_reaches isClosed (by decide) reaches)

/-- The propagated cost of a procedure from which no recursion is reached counts the call sites at the
    end of every walk from the procedure, and estimates the calls there by ten to the power of all loop
    depths on the way. -/
theorem propagated_eq_walk_sums {i : Inspection} (built : i.program.Built)
    (noFailures : i.failures = []) :
    Ensures i fun a => ∀ p ∈ i.program.applicationProcedures, p.body.isSome →
      (∀ cycle ∈ a.cycles, ∀ q ∈ cycle, ¬ a.graph.Reaches p.signature q) →
        ∃ (r : CostRecord) (walks : List (List CallEdge)),
          a.store.propagated.get? p.signature = some r ∧ walks.Nodup ∧
          (∀ walk, walk ∈ walks ↔ a.graph.IsWalk i.program.config p walk) ∧
          r.static = ((walks.map fun walk => (walkEnd p walk).callSites.length).sum : Nat) ∧
          r.approx = ((walks.map fun walk => ((walkEnd p walk).callSites.map fun position =>
            10 ^ (walkDepth p walk + (walkEnd p walk).loops.depthOf position)).sum).sum : Nat) := by
  refine ensures built noFailures fun {a start counted} phases p listed hasBody away => ?_
  obtain ⟨s, steps, idle, resolved, records⟩ := phases.exists_final
  obtain ⟨known, isResolved⟩ := resolved p listed
  have fits := phases.fits
  have acyclic : a.graph.AcyclicFrom p.signature := by
    rwa [CallGraph.AcyclicFrom, ← phases.cycles]
  have isExact (c : Counter) : s.Exact start.program c :=
    holds_of_steps .none (Exact.step fits) steps
  obtain ⟨r, recorded⟩ := (isExact .static).ledger.exists_record known isResolved
  have looks : i.program.config.looksInto p := by
    have counts := (isExact .static).ledger.counts known isResolved
    unfold Program.Counts at counts
    rw [phases.later.program.config] at counts
    simp [Config.looksInto, counts, hasBody]
  let walks := a.graph.walksWithin i.program.config a.graph.components.length p
  have sums (c : Counter) : c.of r = ((walks.map (walkCount c p)).sum : Nat) := by
    rw [sum_walksWithin fits.indexed _ looks, ← phases.later.program.config]
    exact (isExact c).of_finished fits known isResolved acyclic (by simp [idle]) recorded
  refine ⟨r, walks, records ▸ recorded, nodup_walksWithin fits.indexed _ p, fun walk => ?_, ?_, ?_⟩
  · refine mem_walksWithin.trans (and_iff_left_of_imp fun isWalk => ?_)
    exact Nat.le_trans (isWalk.length_le fits acyclic) (a.graph.rank_le _)
  · rw [← funext (walkCount_static p)]
    exact sums .static
  · exact sums .approx

/-- The method of the small program that does not lead to the recursive one. -/
theorem propagated_eq_walk_sums_of_main :
    ∃ a after, ofProgram { program := .sample } = .ok a after ∧
      ∃ (r : CostRecord) (walks : List (List CallEdge)),
        a.store.propagated.get? Program.sampleMain.signature = some r ∧ walks.Nodup ∧
        (∀ walk, walk ∈ walks ↔ a.graph.IsWalk {} Program.sampleMain walk) ∧
        r.static = ((walks.map fun walk =>
          (walkEnd Program.sampleMain walk).callSites.length).sum : Nat) ∧
        r.approx = ((walks.map fun walk =>
          ((walkEnd Program.sampleMain walk).callSites.map fun position =>
            10 ^ (walkDepth Program.sampleMain walk +
              (walkEnd Program.sampleMain walk).loops.depthOf position)).sum).sum : Nat) := by
  obtain ⟨returns, sums⟩ := propagated_eq_walk_sums
    (i := { program := .sample }) Program.built_sample rfl
  obtain ⟨a, after, returned⟩ := returns Program.readable_sample
  refine ⟨a, after, returned, sums returned Program.sampleMain ?_ rfl (away_of_main returned)⟩
  simp [Program.applicationProcedures_sample]

end Analysis

end CallWeight
