import CallWeight.Proofs.DeadCode
import CallWeight.Proofs.LoopDepth

/-! # Natural loops are nested

A natural loop is its header and whatever leads to the source of one of its back edges without passing
the header; the header dominates all of it. Two headers that dominate a common statement are ordered by
dominance, and then the loop of the dominated header lies inside the loop of the other one. So two loops
of a flow without dead code are disjoint or nested, and depth counts them.
-/

namespace CallWeight.Flow

variable {α : Type}

/-- Steps lead from one statement to another one and do not come to a third one on the way. -/
def Bypasses (flow : Flow α) (avoided : α) : α → α → Prop :=
  Relation.ReflTransGen fun source target => flow.Steps source target ∧ target ≠ avoided

section Paths

variable {flow : Flow α} {entry : α}

/-- One of two statements comes last on a path that passes at least one of them. -/
theorem bypasses_of_mem_path {start stop a b : α} {path : List α}
    (isPath : flow.IsPath start path stop) (passed : a ∈ path ∨ b ∈ path) :
    flow.Bypasses b a stop ∨ flow.Bypasses a b stop := by
  induction isPath with
  | here =>
      rcases passed with isStart | isStart
      · exact .inl (List.mem_singleton.mp isStart ▸ .refl)
      · exact .inr (List.mem_singleton.mp isStart ▸ .refl)
  | @step path middle stop before steps ih =>
      by_cases isA : stop = a
      · exact .inl (isA ▸ .refl)
      by_cases isB : stop = b
      · exact .inr (isB ▸ .refl)
      have earlier : a ∈ path ∨ b ∈ path := by
        rcases passed with onPath | onPath
        · exact .inl ((List.mem_append.mp onPath).resolve_right fun last =>
            isA (List.mem_singleton.mp last).symm)
        · exact .inr ((List.mem_append.mp onPath).resolve_right fun last =>
            isB (List.mem_singleton.mp last).symm)
      rcases ih earlier with aLast | bLast
      · exact .inl (aLast.tail ⟨steps, isB⟩)
      · exact .inr (bLast.tail ⟨steps, isA⟩)

/-- A path to a statement passes every other of its statements on a shorter path. -/
theorem exists_shorter_path {start node stop : α} {path : List α}
    (isPath : flow.IsPath start path stop) (onPath : node ∈ path) (other : node ≠ stop) :
    ∃ shorter, flow.IsPath start shorter node ∧ shorter.length < path.length := by
  induction isPath with
  | here => exact absurd (List.mem_singleton.mp onPath) other
  | @step path middle stop before steps ih =>
      have earlier : node ∈ path := (List.mem_append.mp onPath).resolve_right fun last =>
        other (List.mem_singleton.mp last)
      by_cases isMiddle : node = middle
      · exact ⟨path, isMiddle ▸ before, by simp⟩
      · obtain ⟨shorter, isShorter, less⟩ := ih earlier isMiddle
        exact ⟨shorter, isShorter, by simp; omega⟩

variable [DecidableEq α]

theorem Dominates.of_steps {dominator source target : α}
    (dominates : flow.Dominates entry dominator target) (steps : flow.Steps source target)
    (other : target ≠ dominator) : flow.Dominates entry dominator source := by
  intro root path isRoot isPath
  have onPath := dominates root _ isRoot (isPath.step steps)
  exact (List.mem_append.mp onPath).resolve_right fun last =>
    other (List.mem_singleton.mp last).symm

theorem Dominates.of_bypasses {dominator source target : α}
    (dominates : flow.Dominates entry dominator target)
    (bypasses : flow.Bypasses dominator source target) : flow.Dominates entry dominator source := by
  induction bypasses with
  | refl => exact dominates
  | tail _ last ih => exact ih (dominates.of_steps last.1 last.2)

/-- Two dominators of one statement are ordered by dominance. -/
theorem Dominates.total {a b node : α} (reaches : flow.Reaches entry node)
    (aDominates : flow.Dominates entry a node) (bDominates : flow.Dominates entry b node) :
    flow.Dominates entry a b ∨ flow.Dominates entry b a := by
  obtain ⟨path, isPath⟩ := reaches.exists_path
  rcases bypasses_of_mem_path isPath (.inl (aDominates entry path (.inl rfl) isPath)) with
    aLast | bLast
  · exact .inr (bDominates.of_bypasses aLast)
  · exact .inl (aDominates.of_bypasses bLast)

/-- Live statements do not dominate each other: a shortest path to one of them would pass the other on a
    shorter path still. -/
theorem Dominates.antisymm {a b : α} (reaches : flow.Reaches entry a)
    (forth : flow.Dominates entry a b) (back : flow.Dominates entry b a) : a = b := by
  by_contra different
  have noPath : ∀ length (a b : α), a ≠ b → flow.Dominates entry a b → flow.Dominates entry b a →
      ∀ path, flow.IsPath entry path a → path.length = length → False := by
    intro length
    induction length using Nat.strongRecOn with
    | ind length ih =>
        intro a b different forth back path isPath isLength
        have onPath := back entry path (.inl rfl) isPath
        obtain ⟨shorter, isShorter, less⟩ := exists_shorter_path isPath onPath different.symm
        exact ih shorter.length (isLength ▸ less) b a different.symm back forth shorter isShorter rfl
  obtain ⟨path, isPath⟩ := reaches.exists_path
  exact noPath _ a b different forth back path isPath rfl

end Paths

section Gather

variable [DecidableEq α] {flow : Flow α}

/-- Whatever is gathered was unseen and leads to the stack beside the statements that were seen. -/
theorem bypasses_of_mem_gather {header node : α} {unseen stack : List α}
    (inside : ∀ n ∈ unseen, n ∈ flow.nodes ∧ n ≠ header) (gathered : node ∈ flow.gather unseen stack) :
    node ∈ unseen ∧ ∃ source ∈ stack, flow.Bypasses header node source := by
  fun_induction gather flow unseen stack with
  | case1 => cases gathered
  | case2 unseen first stack isUnseen ih =>
      rcases List.mem_cons.mp gathered with rfl | later
      · exact ⟨isUnseen, node, List.mem_cons_self, .refl⟩
      · obtain ⟨left, source, listed, bypasses⟩ :=
          ih (fun n left => inside n (List.mem_of_mem_erase left)) later
        refine ⟨List.mem_of_mem_erase left, ?_⟩
        rcases List.mem_append.mp listed with isSource | inStack
        · obtain ⟨isNode, isNext⟩ := mem_predecessors.mp isSource
          obtain ⟨isFirstNode, other⟩ := inside first isUnseen
          exact ⟨first, List.mem_cons_self, bypasses.tail ⟨⟨isNode, isFirstNode, isNext⟩, other⟩⟩
        · exact ⟨source, List.mem_cons_of_mem _ inStack, bypasses⟩
  | case3 unseen first stack wasSeen ih =>
      obtain ⟨left, source, listed, bypasses⟩ := ih inside gathered
      exact ⟨left, source, List.mem_cons_of_mem _ listed, bypasses⟩

/-- What is unseen and on the stack, or before something that is gathered, is gathered. -/
theorem gather_closed (flow : Flow α) (unseen stack : List α) :
    (∀ node ∈ stack, node ∈ unseen → node ∈ flow.gather unseen stack) ∧
      ∀ node ∈ flow.gather unseen stack, ∀ source ∈ flow.predecessors node, source ∈ unseen →
        source ∈ flow.gather unseen stack := by
  fun_induction gather flow unseen stack with
  | case1 => simp
  | case2 unseen first stack isUnseen ih =>
      obtain ⟨onStack, before⟩ := ih
      -- The statement at hand is listed, and any other unseen one is still unseen afterwards.
      have orFirst {node : α} (isNode : node ∈ unseen)
          (later : node ∈ unseen.erase first → node ∈ flow.gather (unseen.erase first)
            (flow.predecessors first ++ stack)) :
          node ∈ first :: flow.gather (unseen.erase first) (flow.predecessors first ++ stack) := by
        by_cases isFirst : node = first
        · exact isFirst ▸ List.mem_cons_self
        · exact List.mem_cons_of_mem _ (later ((List.mem_erase_of_ne isFirst).mpr isNode))
      constructor
      · intro node listed isNode
        rcases List.mem_cons.mp listed with rfl | inStack
        · exact List.mem_cons_self
        · exact orFirst isNode (onStack node (List.mem_append_right _ inStack))
      · intro node gathered source isSource isNode
        apply orFirst isNode
        rcases List.mem_cons.mp gathered with rfl | later
        · exact onStack source (List.mem_append_left _ isSource)
        · exact before node later source isSource
  | case3 unseen first stack wasSeen ih =>
      refine ⟨fun node listed isNode => ?_, ih.2⟩
      rcases List.mem_cons.mp listed with rfl | inStack
      · exact absurd isNode wasSeen
      · exact ih.1 node inStack isNode

theorem mem_gather {header node : α} {sources : List α} (listed : sources ⊆ flow.nodes) :
    node ∈ flow.gather (flow.nodes.eraseDups.filter (· ≠ header)) sources ↔
      node ≠ header ∧ ∃ source ∈ sources, flow.Bypasses header node source := by
  have isUnseen {n : α} :
      n ∈ flow.nodes.eraseDups.filter (· ≠ header) ↔ n ∈ flow.nodes ∧ n ≠ header := by simp
  constructor
  · intro gathered
    obtain ⟨unseen, source⟩ := bypasses_of_mem_gather (fun n => isUnseen.mp) gathered
    exact ⟨(isUnseen.mp unseen).2, source⟩
  · rintro ⟨other, source, isSource, bypasses⟩
    obtain ⟨onStack, before⟩ := gather_closed flow (flow.nodes.eraseDups.filter (· ≠ header)) sources
    induction bypasses using Relation.ReflTransGen.head_induction_on with
    | refl => exact onStack source isSource (isUnseen.mpr ⟨listed isSource, other⟩)
    | head first _ ih =>
        obtain ⟨⟨isNode, -, isNext⟩, isOther⟩ := first
        exact before _ (ih isOther) _ (mem_predecessors.mpr ⟨isNode, isNext⟩)
          (isUnseen.mpr ⟨isNode, other⟩)

end Gather

section Nesting

variable [DecidableEq α] {flow : Flow α} {entry : α}

/-- The statements of the natural loop of a header: itself, and whatever leads to the source of a step
    back to it without passing it. -/
def InLoop (flow : Flow α) (entry header node : α) : Prop :=
  node = header ∨ node ≠ header ∧ ∃ source, flow.Steps source header ∧
    flow.Dominates entry header source ∧ flow.Bypasses header node source

theorem InLoop.dominates {header node : α} (inLoop : flow.InLoop entry header node) :
    flow.Dominates entry header node := by
  rcases inLoop with rfl | ⟨-, source, -, dominates, bypasses⟩
  · exact fun root path _ isPath => isPath.last_mem
  · exact dominates.of_bypasses bypasses

/-- From a statement of a loop steps lead to the header inside the loop. -/
theorem InLoop.bypasses_header {header node avoided : α} (inLoop : flow.InLoop entry header node)
    (outside : ∀ n, flow.InLoop entry header n → n ≠ avoided) :
    flow.Bypasses avoided node header := by
  rcases inLoop with rfl | ⟨other, source, back, dominates, bypasses⟩
  · exact .refl
  · refine Relation.ReflTransGen.tail ?_ ⟨back, outside header (.inl rfl)⟩
    induction bypasses using Relation.ReflTransGen.head_induction_on with
    | refl => exact .refl
    | @head _ next first rest ih =>
        have nextIn : flow.InLoop entry header next := .inr ⟨first.2, source, back, dominates, rest⟩
        exact (ih first.2).head ⟨first.1, outside next nextIn⟩

/-- A loop lies inside another one if it shares a statement with it and its header is dominated by the
    other header. -/
theorem InLoop.subset {outer inner node : α} (reaches : flow.Reaches entry node)
    (different : outer ≠ inner) (dominates : flow.Dominates entry outer inner)
    (inOuter : flow.InLoop entry outer node) (inInner : flow.InLoop entry inner node) {other : α}
    (otherIn : flow.InLoop entry inner other) : flow.InLoop entry outer other := by
  obtain ⟨path, isPath⟩ := reaches.exists_path
  have outerPassed := inOuter.dominates entry path (.inl rfl) isPath
  have notBack : ¬ flow.Dominates entry inner outer := fun back =>
    different (dominates.antisymm (reaches_of_mem_path isPath outerPassed) back)
  -- The outer header is not in the inner loop, so whatever is in there avoids it.
  have outside : ∀ n, flow.InLoop entry inner n → n ≠ outer := by
    rintro n nIn rfl
    exact notBack nIn.dominates
  -- On a path to the common statement the inner header comes after the outer one.
  have onward : flow.Bypasses outer inner node := by
    rcases bypasses_of_mem_path isPath (.inl outerPassed) with outerLast | innerLast
    · exact absurd (inInner.dominates.of_bypasses outerLast) notBack
    · exact innerLast
  rcases inOuter with isOuter | ⟨-, source, back, sourceDominated, bypasses⟩
  · exact absurd isOuter (outside node inInner)
  · have toSource := ((otherIn.bypasses_header outside).trans onward).trans bypasses
    exact .inr ⟨outside other otherIn, source, back, sourceDominated, toSource⟩

theorem InLoop.mem_nodes {header node : α} (isHeader : header ∈ flow.nodes)
    (inLoop : flow.InLoop entry header node) : node ∈ flow.nodes := by
  rcases inLoop with rfl | ⟨-, source, back, -, bypasses⟩
  · exact isHeader
  · cases bypasses using Relation.ReflTransGen.head_induction_on with
    | refl => exact back.1
    | head first _ => exact first.1.1

section Loops

theorem nodup_headers (flow : Flow α) (entry : α) :
    ((flow.naturalLoopsFrom entry).map (·.header)).Nodup := by
  have headers : (flow.naturalLoopsFrom entry).map (·.header) =
      ((flow.backEdges (flow.dominators entry)).map (·.2)).eraseDups := by
    simp [naturalLoopsFrom, loopOf, Loop.ofMembers, Function.comp_def]
  rw [headers]
  exact nodup_eraseDups _

variable (isEntry : entry ∈ flow.nodes)

include isEntry

theorem mem_naturalLoopsFrom {loop : Loop α} (listed : loop ∈ flow.naturalLoopsFrom entry) :
    loop.header ∈ flow.nodes ∧ loop.members.Nodup ∧
      ∀ node, node ∈ loop.members ↔ flow.InLoop entry loop.header node := by
  obtain ⟨header, isHeader, rfl⟩ := List.mem_map.mp listed
  rw [List.mem_eraseDups] at isHeader
  have isSource {source : α} : source ∈ ((flow.backEdges (flow.dominators entry)).filter
      (·.2 = header)).map (·.1) ↔ flow.Steps source header ∧ flow.Dominates entry header source := by
    rw [← mem_backEdges isEntry]
    simp
  refine ⟨?_, nodup_eraseDups _, fun node => ?_⟩
  · obtain ⟨⟨source, _⟩, isBack, rfl⟩ := List.mem_map.mp isHeader
    exact ((mem_backEdges isEntry).mp isBack).1.2.1
  · simp only [loopOf, Loop.ofMembers, List.mem_eraseDups, List.mem_cons]
    rw [mem_gather fun source listed => (isSource.mp listed).1.1]
    simp only [InLoop, isSource, and_assoc]

/-- Two loops with different headers have different members, and share none if none lies inside the
    other. -/
theorem nested_of_headers (live : ∀ node ∈ flow.nodes, flow.Reaches entry node) {a b : Loop α}
    (isA : a ∈ flow.naturalLoopsFrom entry) (isB : b ∈ flow.naturalLoopsFrom entry)
    (different : a.header ≠ b.header) :
    ¬ (a.members ⊆ b.members ∧ b.members ⊆ a.members) ∧ a.Nested b := by
  obtain ⟨aNode, -, inA⟩ := mem_naturalLoopsFrom isEntry isA
  obtain ⟨bNode, -, inB⟩ := mem_naturalLoopsFrom isEntry isB
  constructor
  · rintro ⟨forth, back⟩
    have aInB := (inB _).mp (forth ((inA _).mpr (.inl rfl)))
    have bInA := (inA _).mp (back ((inB _).mpr (.inl rfl)))
    exact different (bInA.dominates.antisymm (live _ aNode) aInB.dominates)
  · by_cases common : ∃ node ∈ a.members, node ∈ b.members
    · obtain ⟨node, nodeInA, nodeInB⟩ := common
      rw [inA] at nodeInA
      rw [inB] at nodeInB
      have reaches := live node (nodeInA.mem_nodes aNode)
      rcases nodeInA.dominates.total reaches nodeInB.dominates with aFirst | bFirst
      · refine .inr (.inr fun other otherIn => (inA other).mpr ?_)
        exact nodeInA.subset reaches different aFirst nodeInB ((inB other).mp otherIn)
      · refine .inr (.inl fun other otherIn => (inB other).mpr ?_)
        exact nodeInB.subset reaches different.symm bFirst nodeInA ((inA other).mp otherIn)
    · exact .inl fun node nodeInA nodeInB => common ⟨node, nodeInA, nodeInB⟩

/-- If the entry of a flow reaches all its statements, then its loops have different headers and
    different members, two of them are disjoint or one contains the other, and the depth of a statement
    is the number of loops that contain it. -/
theorem natural_loops_nest_and_depth_counts_them
    (live : ∀ node ∈ flow.nodes, flow.Reaches entry node) :
    let loops := flow.naturalLoops (some entry)
    (loops.map (·.header)).Nodup ∧
      loops.Pairwise (fun a b => ¬ ∀ node, node ∈ a.members ↔ node ∈ b.members) ∧
      loops.Pairwise (fun a b =>
        a.members.Disjoint b.members ∨ a.members ⊆ b.members ∨ b.members ⊆ a.members) ∧
      ∀ node, ((LoopNest.ofLoops loops).depths.lookup node).getD 0 =
        loops.countP (·.contains node) := by
  have loopsFrom : flow.naturalLoops (some entry) = flow.naturalLoopsFrom entry := by
    unfold naturalLoops
    split
    · rename_i none
      rw [none] at isEntry
      cases isEntry
    · rfl
  rw [loopsFrom]
  have headers := nodup_headers flow entry
  have pairs := (List.pairwise_map.mp headers).imp_of_mem fun isA isB different =>
    nested_of_headers isEntry live isA isB different
  obtain ⟨differ, nested⟩ := List.pairwise_and_iff.mp pairs
  refine ⟨headers, differ.imp ?_, nested, ?_⟩
  · intro a b apart same
    exact apart ⟨fun node => (same node).mp, fun node => (same node).mpr⟩
  · exact LoopNest.depth_eq_countP
      (fun loop listed => (mem_naturalLoopsFrom isEntry listed).2.1) differ nested

end Loops

/-- The loop of 1 and 2 inside the loop of 0, 1 and 2, and a statement 3 behind it. -/
def twoLoops : Flow Nat where
  nodes := [0, 1, 2, 3]
  next
    | 0 => [1]
    | 1 => [2]
    | 2 => [1, 0, 3]
    | _ => []

theorem natural_loops_nest_and_depth_counts_them_of_two :
    (∀ node ∈ twoLoops.nodes, twoLoops.Reaches 0 node) ∧
      (twoLoops.naturalLoops (some 0)).countP (·.contains 2) = 2 ∧
      ((LoopNest.ofLoops (twoLoops.naturalLoops (some 0))).depths.lookup 2).getD 0 =
        (twoLoops.naturalLoops (some 0)).countP (·.contains 2) := by
  have one : twoLoops.Reaches 0 1 := .single (by simp [Steps, twoLoops])
  have two : twoLoops.Reaches 0 2 := one.tail (by simp [Steps, twoLoops])
  have three : twoLoops.Reaches 0 3 := two.tail (by simp [Steps, twoLoops])
  have live : ∀ node ∈ twoLoops.nodes, twoLoops.Reaches 0 node := by
    intro node isNode
    fin_cases isNode
    · exact .refl
    · exact one
    · exact two
    · exact three
  refine ⟨live, by cbv, ?_⟩
  exact (natural_loops_nest_and_depth_counts_them (by decide) live).2.2.2 2

end Nesting

end CallWeight.Flow
