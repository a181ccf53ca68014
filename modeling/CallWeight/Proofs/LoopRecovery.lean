import CallWeight.Proofs.NaturalNests

/-! # Recovering loops

Elimination finds the dominators that paths show, whatever the entry and whichever statements are
reached: it stops after a bounded number of rounds, and what is left does not depend on the order in
which it passes the statements. From the dominators the loops are found exactly: one for each target of
a step back, and in it whatever leads to the source of such a step beside the target. Searching backwards
from one source after the other, with one body that grows, finds the same statements, and each of
them has a list of predecessors to go on with.
-/

namespace CallWeight

namespace DominatorTable

variable {α : Type}

theorem weight_map_const (rows candidates : List α) :
    weight (rows.map fun row => (row, candidates)) = rows.length * candidates.length := by
  induction rows with
  | nil => simp [weight]
  | cons row rest ih =>
      rw [List.map_cons, weight, ih, List.length_cons, Nat.succ_mul, Nat.add_comm]

end DominatorTable

namespace Flow

variable {α : Type} [DecidableEq α] {flow : Flow α} {entry : α}

/-! ## Dominators -/

section Dominators

/-- No more candidates are there at first than pairs of statements, and the entry itself. -/
theorem weight_candidates_le (flow : Flow α) (entry : α) :
    (flow.candidates entry).weight ≤ flow.nodes.length * flow.nodes.length + 1 := by
  have few : flow.nodes.eraseDups.length ≤ flow.nodes.length :=
    ((nodup_eraseDups flow.nodes).subperm fun node listed =>
      List.mem_eraseDups.mp listed).length_le
  have fewer : (flow.nodes.eraseDups.filter (· ≠ entry)).length ≤ flow.nodes.length :=
    Nat.le_trans (List.length_filter_le _ _) few
  have product := Nat.mul_le_mul fewer few
  unfold candidates
  rw [DominatorTable.weight, DominatorTable.weight_map_const, List.length_singleton]
  omega

/-- Elimination stops: every round but the last one drops a candidate. -/
theorem exists_rounds (flow : Flow α) (entry : α) (order : List α) (table : DominatorTable α) :
    ∃ rounds ≤ table.weight + 1,
      flow.settle entry order table = (flow.eliminate entry order)^[rounds] table ∧
        flow.eliminate entry order (flow.settle entry order table) =
          flow.settle entry order table := by
  fun_induction Flow.settle flow entry order table with
  | case1 table reduced lighter ih =>
      obtain ⟨rounds, few, same, stable⟩ := ih
      refine ⟨rounds + 1, by omega, ?_, stable⟩
      rw [same, Function.iterate_succ_apply]
  | case2 table reduced settled =>
      have same : reduced = table := (eliminate_eq_of_weight (Nat.le_of_not_lt settled)).1
      refine ⟨1, by omega, rfl, ?_⟩
      rw [same]
      exact same

/-- What elimination leaves is told by paths, in whichever order it passes the statements. -/
theorem mem_settle {order : List α} (complete : flow.nodes ⊆ order) {node dominator : α}
    (isNode : node ∈ flow.nodes) (isListed : dominator ∈ flow.nodes) :
    dominator ∈ (flow.settle entry order (flow.candidates entry)).of node ↔
      flow.Dominates entry dominator node := by
  have holds := Holds.candidates flow entry
  constructor
  · intro isLeft root path isRoot isPath
    exact mem_path_of_settled holds complete isRoot isPath isNode isLeft
  · intro dominates
    exact (holds.settle order).keeps isNode isListed dominates

theorem mem_dominators_iff {node dominator : α} (isNode : node ∈ flow.nodes)
    (isListed : dominator ∈ flow.nodes) :
    dominator ∈ (flow.dominators entry).of node ↔ flow.Dominates entry dominator node :=
  mem_settle (List.subset_append_right _ _) isNode isListed

/-- A statement dominates another one exactly if it lies on every path from a root to it; so
    everything dominates what no root reaches. In whichever order elimination passes the statements, it
    finds the same dominators in a bounded number of rounds, after which it changes nothing. -/
theorem dominators_exact (flow : Flow α) (entry : α) :
    (∀ node ∈ flow.nodes, ∀ dominator ∈ flow.nodes,
      dominator ∈ (flow.dominators entry).of node ↔
        ∀ root path, flow.IsRoot entry root → flow.IsPath root path node → dominator ∈ path) ∧
    (∀ node ∈ flow.nodes, (∀ root, flow.IsRoot entry root → ¬ flow.Reaches root node) →
      flow.nodes ⊆ (flow.dominators entry).of node) ∧
    ∀ order, flow.nodes ⊆ order →
      ∃ rounds ≤ flow.nodes.length * flow.nodes.length + 2,
        let table := (flow.eliminate entry order)^[rounds] (flow.candidates entry)
        flow.eliminate entry order table = table ∧
          ∀ node ∈ flow.nodes, ∀ dominator ∈ flow.nodes,
            dominator ∈ table.of node ↔ dominator ∈ (flow.dominators entry).of node := by
  refine ⟨?_, ?_, ?_⟩
  · intro node isNode dominator isListed
    exact mem_dominators_iff isNode isListed
  · intro node isNode unreached dominator isListed
    rw [mem_dominators_iff isNode isListed]
    intro root path isRoot isPath
    exact absurd isPath.reaches (unreached root isRoot)
  · intro order complete
    obtain ⟨rounds, few, same, stable⟩ :=
      exists_rounds flow entry order (flow.candidates entry)
    have bound := weight_candidates_le flow entry
    refine ⟨rounds, by omega, ?_⟩
    rw [← same]
    refine ⟨stable, fun node isNode dominator isListed => ?_⟩
    rw [mem_settle complete isNode isListed, mem_dominators_iff isNode isListed]

/-- The loop of 2 and 3 is dead code, so everything dominates it. -/
example : (({ nodes := [0, 1, 2, 3], next := fun n => [[1], [], [3], [2]].getD n [] } : Flow Nat)
    |>.dominators 0).of 3 = [0, 1, 2, 3] := by cbv

end Dominators

/-! ## Natural loops -/

section Loops

/-- Whether a step leads to a dominator of the statement that it comes from. -/
def IsBackEdge (flow : Flow α) (entry source header : α) : Prop :=
  source ∈ flow.nodes ∧ header ∈ flow.next source ∧ header ∈ (flow.dominators entry).of source

theorem mem_backEdges_iff {source header : α} :
    (source, header) ∈ flow.backEdges (flow.dominators entry) ↔
      flow.IsBackEdge entry source header := by
  simp [backEdges, IsBackEdge]

omit [DecidableEq α] in
theorem IsPath.first_mem {start stop : α} {path : List α} (isPath : flow.IsPath start path stop) :
    start ∈ path := by
  induction isPath with
  | here => exact List.mem_singleton_self _
  | step _ _ ih => exact List.mem_append_left _ ih

omit [DecidableEq α] in
/-- Steps that do not come to a statement make a path without it, if they do not start there. -/
theorem bypasses_iff_exists_path {avoided start stop : α} (other : start ≠ avoided) :
    flow.Bypasses avoided start stop ↔ ∃ path, flow.IsPath start path stop ∧ avoided ∉ path := by
  constructor
  · intro bypasses
    induction bypasses with
    | refl => exact ⟨[start], .here, by simpa using Ne.symm other⟩
    | tail _ last ih =>
        obtain ⟨path, isPath, aside⟩ := ih
        refine ⟨_, isPath.step last.1, ?_⟩
        simpa [aside] using Ne.symm last.2
  · rintro ⟨path, isPath, aside⟩
    induction isPath with
    | here => exact .refl
    | step _ steps ih =>
        simp only [List.mem_append, List.mem_singleton, not_or] at aside
        exact (ih aside.1).tail ⟨steps, Ne.symm aside.2⟩

omit [DecidableEq α] in
theorem mem_nodes_of_bypasses {avoided start stop : α} (bypasses : flow.Bypasses avoided start stop)
    (isNode : stop ∈ flow.nodes) : start ∈ flow.nodes := by
  cases bypasses using Relation.ReflTransGen.head_induction_on with
  | refl => exact isNode
  | head first _ => exact first.1.1

/-- The sources of the steps back to a header, in the order in which they are met. -/
def backSources (flow : Flow α) (entry header : α) : List α :=
  ((flow.backEdges (flow.dominators entry)).filter (·.2 = header)).map (·.1)

theorem mem_backSources {source header : α} :
    source ∈ flow.backSources entry header ↔ flow.IsBackEdge entry source header := by
  rw [← mem_backEdges_iff]
  simp [backSources]

theorem backSources_subset (header : α) : flow.backSources entry header ⊆ flow.nodes :=
  fun _ listed => (mem_backSources.mp listed).1

theorem mem_loopOf {header node : α} {sources : List α} (listed : sources ⊆ flow.nodes) :
    node ∈ (flow.loopOf header sources).members ↔
      node = header ∨ node ≠ header ∧ ∃ source ∈ sources, flow.Bypasses header node source := by
  simp only [loopOf, Loop.ofMembers, List.mem_eraseDups, List.mem_cons]
  rw [mem_gather listed]

end Loops

/-! ## One search after the other -/

section Growing

/-- Search backwards from the statements on a stack and add to a body what is met. A statement that is
    not in the body yet has to be listed, because otherwise it has no list of predecessors. -/
def growFrom (flow : Flow α) (body : List α) : List α → Option (List α)
  | [] => some body
  | node :: stack =>
      if node ∈ body then growFrom flow body stack
      else if node ∈ flow.nodes then
        growFrom flow (node :: body) ((flow.predecessors node).reverse ++ stack)
      else none
termination_by stack => ((flow.nodes.filter (· ∉ body)).length, stack.length)
decreasing_by
  · exact Prod.Lex.right _ (Nat.lt_succ_self _)
  · rename_i isNew isNode
    apply Prod.Lex.left
    have fewer : flow.nodes.filter (· ∉ node :: body) =
        (flow.nodes.filter (· ∉ body)).filter (· ≠ node) := by
      rw [List.filter_filter]
      apply List.filter_congr
      simp
    rw [fewer]
    apply List.length_filter_lt_length_iff_exists.mpr
    exact ⟨node, List.mem_filter.mpr ⟨isNode, by simpa using isNew⟩, by simp⟩

/-- The body of a loop, searched from one source after the other. -/
def growLoop (flow : Flow α) (header : α) (sources : List α) : Option (List α) :=
  sources.foldlM (fun body source => flow.growFrom body [source]) [header]

/-- What holds while a body grows: whatever is in it or on the stack leads to a source beside the
    header, and predecessors are in it or still to come. -/
structure Growing (flow : Flow α) (header : α) (sources body stack : List α) : Prop where
  hasHeader : header ∈ body
  listed : ∀ node ∈ stack, node ∈ flow.nodes
  waiting : ∀ node ∈ stack, ∃ source ∈ sources, flow.Bypasses header node source
  leads : ∀ node ∈ body, node ≠ header → ∃ source ∈ sources, flow.Bypasses header node source
  closed : ∀ node ∈ body, node ≠ header → ∀ before ∈ flow.predecessors node,
    before ∈ body ∨ before ∈ stack

variable {header node : α} {sources body stack : List α}

theorem Growing.skip (growing : flow.Growing header sources body (node :: stack))
    (wasMet : node ∈ body) : flow.Growing header sources body stack where
  hasHeader := growing.hasHeader
  listed := (List.forall_mem_cons.mp growing.listed).2
  waiting := (List.forall_mem_cons.mp growing.waiting).2
  leads := growing.leads
  closed := by
    intro member isMember other before isBefore
    rcases growing.closed member isMember other before isBefore with inBody | onStack
    · exact .inl inBody
    · rcases List.mem_cons.mp onStack with rfl | inRest
      · exact .inl wasMet
      · exact .inr inRest

theorem Growing.add (growing : flow.Growing header sources body (node :: stack))
    (isNew : node ∉ body) :
    flow.Growing header sources (node :: body) ((flow.predecessors node).reverse ++ stack) := by
  obtain ⟨isNode, othersListed⟩ := List.forall_mem_cons.mp growing.listed
  obtain ⟨⟨source, isSource, bypasses⟩, othersWaiting⟩ := List.forall_mem_cons.mp growing.waiting
  have other : node ≠ header := fun same => isNew (same ▸ growing.hasHeader)
  have isPredecessor {before : α} (isBefore : before ∈ (flow.predecessors node).reverse) :=
    mem_predecessors.mp (List.mem_reverse.mp isBefore)
  refine ⟨List.mem_cons_of_mem _ growing.hasHeader, ?_, ?_, ?_, ?_⟩
  · intro waiting onStack
    rcases List.mem_append.mp onStack with isBefore | inRest
    · exact (isPredecessor isBefore).1
    · exact othersListed waiting inRest
  · intro waiting onStack
    rcases List.mem_append.mp onStack with isBefore | inRest
    · obtain ⟨isListed, isNext⟩ := isPredecessor isBefore
      exact ⟨source, isSource, bypasses.head ⟨⟨isListed, isNode, isNext⟩, other⟩⟩
    · exact othersWaiting waiting inRest
  · intro member isMember isOther
    rcases List.mem_cons.mp isMember with rfl | inBody
    · exact ⟨source, isSource, bypasses⟩
    · exact growing.leads member inBody isOther
  · intro member isMember isOther before isBefore
    rcases List.mem_cons.mp isMember with rfl | inBody
    · exact .inr (List.mem_append_left _ (List.mem_reverse.mpr isBefore))
    · rcases growing.closed member inBody isOther before isBefore with beforeIn | onStack
      · exact .inl (List.mem_cons_of_mem _ beforeIn)
      · rcases List.mem_cons.mp onStack with rfl | inRest
        · exact .inl List.mem_cons_self
        · exact .inr (List.mem_append_right _ inRest)

/-- A search never meets a statement without a list of predecessors. -/
theorem Growing.exists_grown (growing : flow.Growing header sources body stack) :
    ∃ grown, flow.growFrom body stack = some grown ∧ flow.Growing header sources grown [] ∧
      body ⊆ grown ∧ stack ⊆ grown := by
  fun_induction growFrom flow body stack with
  | case1 body => exact ⟨body, rfl, growing, List.Subset.refl _, List.nil_subset _⟩
  | case2 body node stack wasMet ih =>
      obtain ⟨grown, returned, grows, more, fromStack⟩ := ih (growing.skip wasMet)
      exact ⟨grown, returned, grows, more, List.cons_subset.mpr ⟨more wasMet, fromStack⟩⟩
  | case3 body node stack isNew isNode ih =>
      obtain ⟨grown, returned, grows, more, fromStack⟩ := ih (growing.add isNew)
      obtain ⟨isIn, old⟩ := List.cons_subset.mp more
      refine ⟨grown, returned, grows, old, List.cons_subset.mpr ⟨isIn, ?_⟩⟩
      exact fun other inStack => fromStack (List.mem_append_right _ inStack)
  | case4 body node stack isNew isUnlisted =>
      exact absurd (growing.listed node List.mem_cons_self) isUnlisted

/-- The searches from some of the sources, one after the other. -/
theorem Growing.exists_growLoop (growing : flow.Growing header sources body [])
    {remaining : List α} (fewer : remaining ⊆ sources) (listed : sources ⊆ flow.nodes) :
    ∃ grown, remaining.foldlM (fun body source => flow.growFrom body [source]) body = some grown ∧
      flow.Growing header sources grown [] ∧ body ⊆ grown ∧ remaining ⊆ grown := by
  induction remaining generalizing body with
  | nil => exact ⟨body, rfl, growing, List.Subset.refl _, List.nil_subset _⟩
  | cons source rest ih =>
      obtain ⟨isSource, others⟩ := List.cons_subset.mp fewer
      have starts : flow.Growing header sources body [source] :=
        { growing with
          listed := List.forall_mem_singleton.mpr (listed isSource)
          waiting := List.forall_mem_singleton.mpr ⟨source, isSource, .refl⟩
          closed := fun member isMember other before isBefore =>
            (growing.closed member isMember other before isBefore).imp_right nofun }
      obtain ⟨middle, returned, grows, more, isIn⟩ := starts.exists_grown
      obtain ⟨grown, returnedRest, growsRest, moreRest, restIn⟩ := ih grows others
      refine ⟨grown, ?_, growsRest, List.Subset.trans more moreRest, ?_⟩
      · rw [List.foldlM_cons, returned]
        exact returnedRest
      · exact List.cons_subset.mpr ⟨moreRest (isIn List.mem_cons_self), restIn⟩

/-- A body that is closed under predecessors, except at its header, has all that leads to it beside the
    header. -/
theorem Growing.mem_of_bypasses (growing : flow.Growing header sources body []) {stop : α}
    (isIn : stop ∈ body) (other : node ≠ header) (bypasses : flow.Bypasses header node stop) :
    node ∈ body := by
  induction bypasses using Relation.ReflTransGen.head_induction_on with
  | refl => exact isIn
  | head first _ ih =>
      obtain ⟨⟨isNode, -, isNext⟩, isOther⟩ := first
      have before := mem_predecessors.mpr ⟨isNode, isNext⟩
      exact (growing.closed _ (ih isOther) isOther _ before).resolve_right nofun

/-- Searching from one source after the other gives the members of the loop. -/
theorem exists_growLoop (header : α) (listed : sources ⊆ flow.nodes) :
    ∃ grown, flow.growLoop header sources = some grown ∧
      ∀ node, node ∈ grown ↔ node ∈ (flow.loopOf header sources).members := by
  have starts : flow.Growing header sources [header] [] := by
    refine ⟨List.mem_cons_self, nofun, nofun, ?_, ?_⟩
    · exact List.forall_mem_singleton.mpr fun other => absurd rfl other
    · exact List.forall_mem_singleton.mpr fun other => absurd rfl other
  obtain ⟨grown, returned, growing, more, sourcesIn⟩ :=
    starts.exists_growLoop (List.Subset.refl sources) listed
  refine ⟨grown, returned, fun node => ?_⟩
  rw [mem_loopOf listed]
  by_cases isHeader : node = header
  · simp [isHeader, growing.hasHeader]
  · simp only [isHeader, false_or, ne_eq, not_false_eq_true, true_and]
    constructor
    · intro isIn
      exact growing.leads node isIn isHeader
    · rintro ⟨source, isSource, bypasses⟩
      exact growing.mem_of_bypasses (sourcesIn isSource) isHeader bypasses

end Growing

/-- The statement at which a flow starts: the given one, or else the first one. -/
def start? (flow : Flow α) (entry : Option α) : Option α := entry.or flow.nodes.head?

theorem naturalLoops_eq (flow : Flow α) (entry : Option α) :
    flow.naturalLoops entry = ((flow.start? entry).map flow.naturalLoopsFrom).getD [] := by
  unfold naturalLoops start?
  split
  · rename_i none
    have noLoops (start : α) : flow.naturalLoopsFrom start = [] := by
      simp [naturalLoopsFrom, backEdges, none]
    cases entry with
    | none => simp [none]
    | some given => simp [noLoops]
  · rename_i first rest listed
    cases entry with
    | none => simp [listed]
    | some given => rfl

theorem mem_naturalLoops {entry : Option α} {loop : Loop α} :
    loop ∈ flow.naturalLoops entry ↔
      ∃ start ∈ flow.start? entry, ∃ source header, flow.IsBackEdge start source header ∧
        flow.loopOf header (flow.backSources start header) = loop := by
  rw [naturalLoops_eq]
  cases flow.start? entry with
  | none => simp
  | some start =>
      simp only [Option.map_some, Option.getD_some, naturalLoopsFrom, List.mem_map,
        List.mem_eraseDups, Prod.exists, Option.mem_some_iff, exists_eq_left', mem_backEdges_iff]
      constructor
      · rintro ⟨header, ⟨source, _, isBack, rfl⟩, isLoop⟩
        exact ⟨source, _, isBack, isLoop⟩
      · rintro ⟨source, header, isBack, isLoop⟩
        exact ⟨header, ⟨source, header, isBack, rfl⟩, isLoop⟩

theorem nodup_headers_naturalLoops (flow : Flow α) (entry : Option α) :
    ((flow.naturalLoops entry).map (·.header)).Nodup := by
  rw [naturalLoops_eq]
  cases flow.start? entry with
  | none => exact .nil
  | some start => exact nodup_headers flow start

/-- There is one loop for each target of a step back, and in it are the target and every statement from
    which a path leads to the source of such a step without passing the target. Searches from one
    source after the other, which would fail at a statement without a list of predecessors, find the
    same members. -/
theorem natural_loops_exact (flow : Flow α) (entry : Option α) :
    ((flow.naturalLoops entry).map (·.header)).Nodup ∧
    (∀ header, header ∈ (flow.naturalLoops entry).map (·.header) ↔
      ∃ start ∈ flow.start? entry, ∃ source, flow.IsBackEdge start source header) ∧
    ∀ loop ∈ flow.naturalLoops entry, ∃ start ∈ flow.start? entry,
      (∀ node, node ∈ loop.members ↔ node = loop.header ∨ node ∈ flow.nodes ∧
        ∃ source path, flow.IsBackEdge start source loop.header ∧
          flow.IsPath node path source ∧ loop.header ∉ path) ∧
      ∃ grown, flow.growLoop loop.header (flow.backSources start loop.header) = some grown ∧
        ∀ node, node ∈ grown ↔ node ∈ loop.members := by
  refine ⟨nodup_headers_naturalLoops flow entry, fun header => ?_, fun loop isLoop => ?_⟩
  · rw [List.mem_map]
    constructor
    · rintro ⟨loop, isLoop, rfl⟩
      obtain ⟨start, isStart, source, header, isBack, rfl⟩ := mem_naturalLoops.mp isLoop
      exact ⟨start, isStart, source, isBack⟩
    · rintro ⟨start, isStart, source, isBack⟩
      exact ⟨_, mem_naturalLoops.mpr ⟨start, isStart, source, header, isBack, rfl⟩, rfl⟩
  · obtain ⟨start, isStart, -, header, -, rfl⟩ := mem_naturalLoops.mp isLoop
    have listed : flow.backSources start header ⊆ flow.nodes := backSources_subset header
    refine ⟨start, isStart, fun node => ?_, exists_growLoop header listed⟩
    rw [mem_loopOf listed]
    apply or_congr_right
    constructor
    · rintro ⟨other, source, isSource, bypasses⟩
      obtain ⟨path, isPath, aside⟩ := (bypasses_iff_exists_path other).mp bypasses
      exact ⟨mem_nodes_of_bypasses bypasses (listed isSource), source, path,
        mem_backSources.mp isSource, isPath, aside⟩
    · rintro ⟨-, source, path, isBack, isPath, aside⟩
      have other : node ≠ header := by
        rintro rfl
        exact aside isPath.first_mem
      exact ⟨other, source, mem_backSources.mpr isBack,
        (bypasses_iff_exists_path other).mpr ⟨path, isPath, aside⟩⟩

end Flow

end CallWeight
