import CallWeight.Proofs.Dominance
import CallWeight.Proofs.LoopNests

/-! # Loops of live code

A statement is live if the entry reaches it. As long as no step leads from dead code into live code,
dead code does not matter to live code: the flow of the live statements alone has the same dominators
and the same loops, and so the same depths. A step from dead code into live code does matter, because a
statement without predecessors counts as another root.
-/

namespace CallWeight.Flow

variable {α : Type}

open Classical in
noncomputable def isLive (flow : Flow α) (entry node : α) : Bool := flow.Reaches entry node

/-- The flow of those statements that the entry reaches. -/
noncomputable def live (flow : Flow α) (entry : α) : Flow α where
  nodes := flow.nodes.filter (flow.isLive entry)
  next node := (flow.next node).filter (flow.isLive entry)

/-- No step leads from dead code into live code. -/
def Sealed (flow : Flow α) (entry : α) : Prop :=
  ∀ source target, flow.Steps source target → flow.Reaches entry target → flow.Reaches entry source

section Live

variable {flow : Flow α} {entry : α}

@[simp] theorem isLive_iff {node : α} : flow.isLive entry node = true ↔ flow.Reaches entry node := by
  simp [isLive]

theorem isLive_of_steps {source target : α} (steps : flow.Steps source target)
    (isLive : flow.isLive entry source = true) : flow.isLive entry target = true :=
  isLive_iff.mpr ((isLive_iff.mp isLive).tail steps)

theorem mem_live {node : α} :
    node ∈ (flow.live entry).nodes ↔ node ∈ flow.nodes ∧ flow.Reaches entry node := by
  simp [live]

theorem steps_live {source target : α} :
    (flow.live entry).Steps source target ↔ flow.Steps source target ∧ flow.Reaches entry source := by
  simp only [Steps, mem_live]
  constructor
  · rintro ⟨⟨isSource, reaches⟩, ⟨isTarget, -⟩, isNext⟩
    exact ⟨⟨isSource, isTarget, (List.mem_filter.mp isNext).1⟩, reaches⟩
  · rintro ⟨⟨isSource, isTarget, isNext⟩, reaches⟩
    have targetReached : flow.Reaches entry target := reaches.tail ⟨isSource, isTarget, isNext⟩
    exact ⟨⟨isSource, reaches⟩, ⟨isTarget, targetReached⟩,
      List.mem_filter.mpr ⟨isNext, isLive_iff.mpr targetReached⟩⟩

theorem isPath_live {path : List α} {node : α} :
    (flow.live entry).IsPath entry path node ↔ flow.IsPath entry path node := by
  constructor
  · intro isPath
    induction isPath with
    | here => exact .here
    | step _ steps ih => exact ih.step (steps_live.mp steps).1
  · intro isPath
    induction isPath with
    | here => exact .here
    | step before steps ih => exact ih.step (steps_live.mpr ⟨steps, before.reaches⟩)

theorem reaches_of_mem_path {path : List α} {node stop : α} (isPath : flow.IsPath entry path stop)
    (onPath : node ∈ path) : flow.Reaches entry node := by
  induction isPath with
  | here => exact List.mem_singleton.mp onPath ▸ .refl
  | step before steps ih =>
      rcases List.mem_append.mp onPath with early | last
      · exact ih early
      · exact List.mem_singleton.mp last ▸ before.reaches.tail steps

/-- Every live statement but the entry has a live predecessor. -/
theorem eq_entry_of_reaches {node : α} (reaches : flow.Reaches entry node)
    (noSource : ∀ source, flow.Reaches entry source → ¬ flow.Steps source node) : node = entry := by
  cases reaches with
  | refl => rfl
  | tail before steps => exact absurd steps (noSource _ before)

theorem live_of_first {rest : List α} (first : flow.nodes = entry :: rest) :
    (flow.live entry).nodes = entry :: rest.filter (flow.isLive entry) := by
  have isLive : flow.isLive entry entry = true := isLive_iff.mpr .refl
  simp only [live, first, List.filter_cons_of_pos isLive]

theorem mem_nodes_of_mem_path {path : List α} {node stop : α} (isEntry : entry ∈ flow.nodes)
    (isPath : flow.IsPath entry path stop) (onPath : node ∈ path) : node ∈ flow.nodes := by
  induction isPath with
  | here => exact List.mem_singleton.mp onPath ▸ isEntry
  | step _ steps ih =>
      rcases List.mem_append.mp onPath with early | last
      · exact ih early
      · exact List.mem_singleton.mp last ▸ steps.2.1

theorem Sealed.reaches_of_path (separate : flow.Sealed entry) {root node : α} {path : List α}
    (isPath : flow.IsPath root path node) (reaches : flow.Reaches entry node) :
    flow.Reaches entry root := by
  induction isPath with
  | here => exact reaches
  | step _ steps ih => exact ih (separate _ _ steps reaches)

variable [DecidableEq α]

theorem eq_entry_of_isRoot_live {root : α} (isRoot : (flow.live entry).IsRoot entry root) :
    root = entry := by
  rcases isRoot with isEntry | ⟨isNode, none⟩
  · exact isEntry
  · apply eq_entry_of_reaches (mem_live.mp isNode).2
    intro source reaches steps
    obtain ⟨isSource, -, isNext⟩ := steps_live.mpr ⟨steps, reaches⟩
    exact List.ne_nil_of_mem (mem_predecessors.mpr ⟨isSource, isNext⟩) none

theorem Sealed.dominates_iff (separate : flow.Sealed entry) {node dominator : α}
    (reaches : flow.Reaches entry node) :
    flow.Dominates entry dominator node ↔
      ∀ path, flow.IsPath entry path node → dominator ∈ path := by
  constructor
  · intro dominates path isPath
    exact dominates entry path (.inl rfl) isPath
  · intro onPaths root path isRoot isPath
    suffices isEntry : root = entry by
      subst isEntry
      exact onPaths path isPath
    rcases isRoot with isEntry | ⟨-, none⟩
    · exact isEntry
    · apply eq_entry_of_reaches (separate.reaches_of_path isPath reaches)
      intro source _ steps
      exact List.ne_nil_of_mem (mem_predecessors.mpr ⟨steps.1, steps.2.2⟩) none

theorem dominates_live_iff {node dominator : α} :
    (flow.live entry).Dominates entry dominator node ↔
      ∀ path, flow.IsPath entry path node → dominator ∈ path := by
  constructor
  · intro dominates path isPath
    exact dominates entry path (.inl rfl) (isPath_live.mpr isPath)
  · intro onPaths root path isRoot isPath
    obtain rfl := eq_entry_of_isRoot_live isRoot
    exact onPaths path (isPath_live.mp isPath)

end Live

section Loops

variable [DecidableEq α] {flow : Flow α} {entry : α}

theorem mem_backEdges (isEntry : entry ∈ flow.nodes) {source header : α} :
    (source, header) ∈ flow.backEdges (flow.dominators entry) ↔
      flow.Steps source header ∧ flow.Dominates entry header source := by
  simp only [backEdges, List.mem_flatMap, List.mem_map, List.mem_filter, Prod.mk.injEq,
    List.contains_iff_mem]
  constructor
  · rintro ⟨_, isSource, _, ⟨isNext, isLeft⟩, rfl, rfl⟩
    obtain ⟨isHeader, dominates⟩ := (mem_dominators isEntry isSource).mp isLeft
    exact ⟨⟨isSource, isHeader, isNext⟩, dominates⟩
  · rintro ⟨⟨isSource, isHeader, isNext⟩, dominates⟩
    exact ⟨source, isSource, header,
      ⟨isNext, (mem_dominators isEntry isSource).mpr ⟨isHeader, dominates⟩⟩, rfl, rfl⟩

/-- What holds of a stack and is handed on to predecessors holds of everything that is gathered. -/
theorem forall_mem_gather {P : α → Prop}
    (back : ∀ node, P node → ∀ source ∈ flow.predecessors node, P source)
    {unseen stack : List α} (start : ∀ node ∈ stack, P node) :
    ∀ node ∈ flow.gather unseen stack, P node := by
  fun_induction gather flow unseen stack with
  | case1 => simp
  | case2 unseen node stack isUnseen ih =>
      obtain ⟨first, others⟩ := List.forall_mem_cons.mp start
      refine List.forall_mem_cons.mpr ⟨first, ih fun source listed => ?_⟩
      rcases List.mem_append.mp listed with isSource | inStack
      · exact back node first source isSource
      · exact others source inStack
  | case3 unseen node stack wasSeen ih => exact ih (List.forall_mem_cons.mp start).2

section Sealed

variable (separate : flow.Sealed entry) (isEntry : entry ∈ flow.nodes)

include separate

theorem isLive_of_predecessor {source node : α} (isNode : node ∈ flow.nodes)
    (isSource : source ∈ flow.predecessors node) :
    flow.isLive entry source = flow.isLive entry node := by
  obtain ⟨isSourceNode, isNext⟩ := mem_predecessors.mp isSource
  have steps : flow.Steps source node := ⟨isSourceNode, isNode, isNext⟩
  rw [Bool.eq_iff_iff]
  constructor
  · exact isLive_of_steps steps
  · intro isLive
    exact isLive_iff.mpr (separate source node steps (isLive_iff.mp isLive))

theorem predecessors_live {node : α} (isNode : node ∈ flow.nodes)
    (isLive : flow.isLive entry node = true) :
    (flow.live entry).predecessors node = flow.predecessors node := by
  unfold predecessors
  simp only [live, List.filter_filter]
  apply List.filter_congr
  intro source isSource
  by_cases isNext : node ∈ flow.next source
  · have sourceLive := isLive_of_predecessor separate isNode
      (mem_predecessors.mpr ⟨isSource, isNext⟩)
    simp [isNext, isLive_iff.mp isLive, isLive_iff.mp (sourceLive.trans isLive)]
  · simp [isNext]

theorem gather_live {unseen stack : List α}
    (start : ∀ node ∈ stack, node ∈ flow.nodes ∧ flow.isLive entry node = true) :
    (flow.live entry).gather (unseen.filter (flow.isLive entry)) stack = flow.gather unseen stack := by
  fun_induction gather flow unseen stack with
  | case1 => simp [gather]
  | case2 unseen node stack isUnseen ih =>
      obtain ⟨⟨isNode, isLive⟩, others⟩ := List.forall_mem_cons.mp start
      rw [gather, if_pos (List.mem_filter.mpr ⟨isUnseen, isLive⟩),
        predecessors_live separate isNode isLive, List.erase_filter, ih]
      intro source listed
      rcases List.mem_append.mp listed with isSource | inStack
      · exact ⟨(mem_predecessors.mp isSource).1,
          (isLive_of_predecessor separate isNode isSource).trans isLive⟩
      · exact others source inStack
  | case3 unseen node stack wasSeen ih =>
      have stillSeen : node ∉ unseen.filter (flow.isLive entry) := fun listed =>
        wasSeen (List.mem_filter.mp listed).1
      rw [gather, if_neg stillSeen, ih (List.forall_mem_cons.mp start).2]

theorem loopOf_live {header : α} {sources : List α}
    (start : ∀ node ∈ sources, node ∈ flow.nodes ∧ flow.isLive entry node = true) :
    (flow.live entry).loopOf header sources = flow.loopOf header sources := by
  have unseen : (flow.live entry).nodes.eraseDups.filter (· ≠ header) =
      (flow.nodes.eraseDups.filter (· ≠ header)).filter (flow.isLive entry) := by
    simp only [live, ← filter_eraseDups, List.filter_filter, Bool.and_comm]
  unfold loopOf
  rw [unseen, gather_live separate start]

include isEntry

theorem mem_dominators_live {node dominator : α} (isNode : node ∈ flow.nodes)
    (reaches : flow.Reaches entry node) :
    dominator ∈ ((flow.live entry).dominators entry).of node ↔
      dominator ∈ (flow.dominators entry).of node := by
  rw [mem_dominators (mem_live.mpr ⟨isEntry, .refl⟩) (mem_live.mpr ⟨isNode, reaches⟩),
    mem_dominators isEntry isNode, separate.dominates_iff reaches, dominates_live_iff, mem_live]
  constructor
  · rintro ⟨⟨isListed, -⟩, onPaths⟩
    exact ⟨isListed, onPaths⟩
  · rintro ⟨isListed, onPaths⟩
    obtain ⟨path, isPath⟩ := reaches.exists_path
    exact ⟨⟨isListed, reaches_of_mem_path isPath (onPaths path isPath)⟩, onPaths⟩

/-- Both ends of a back edge are live or both are dead. -/
theorem isLive_of_backEdge {edge : α × α} (isBack : edge ∈ flow.backEdges (flow.dominators entry)) :
    edge.1 ∈ flow.nodes ∧ edge.2 ∈ flow.nodes ∧
      flow.isLive entry edge.1 = flow.isLive entry edge.2 := by
  obtain ⟨steps, -⟩ := (mem_backEdges isEntry).mp isBack
  exact ⟨steps.1, steps.2.1,
    isLive_of_predecessor separate steps.2.1 (mem_predecessors.mpr ⟨steps.1, steps.2.2⟩)⟩

theorem backEdges_live :
    (flow.live entry).backEdges ((flow.live entry).dominators entry) =
      (flow.backEdges (flow.dominators entry)).filter fun edge => flow.isLive entry edge.2 := by
  have each : ∀ source ∈ flow.nodes,
      (((flow.next source).filter ((flow.dominators entry).of source).contains).map
          fun header => (source, header)).filter (fun edge => flow.isLive entry edge.2) =
        if flow.isLive entry source = true then
          (((flow.live entry).next source).filter
            (((flow.live entry).dominators entry).of source).contains).map
              fun header => (source, header)
        else [] := by
    intro source isSource
    have sameSide : ∀ header ∈ flow.next source, header ∈ (flow.dominators entry).of source →
        flow.isLive entry source = flow.isLive entry header := by
      intro header isNext isLeft
      have isHeader := ((mem_dominators isEntry isSource).mp isLeft).1
      exact isLive_of_predecessor separate isHeader (mem_predecessors.mpr ⟨isSource, isNext⟩)
    rw [List.filter_map, List.filter_filter]
    by_cases isLive : flow.isLive entry source = true
    · rw [if_pos isLive]
      simp only [live, List.filter_filter]
      congr 1
      apply List.filter_congr
      intro header _
      have same : header ∈ ((flow.live entry).dominators entry).of source ↔
          header ∈ (flow.dominators entry).of source :=
        mem_dominators_live separate isEntry isSource (isLive_iff.mp isLive)
      simp only [live] at same
      simp only [List.contains_eq_mem, same, Function.comp_apply, Bool.and_comm]
    · rw [if_neg isLive, List.map_eq_nil_iff, List.filter_eq_nil_iff]
      intro header isNext both
      simp only [Function.comp_apply, Bool.and_eq_true, List.contains_iff_mem] at both
      exact isLive ((sameSide header isNext both.2).trans both.1)
  unfold backEdges
  rw [List.filter_flatMap, List.flatMap_congr each]
  exact flatMap_filter (flow.isLive entry) _ flow.nodes

/-- The loops of the live flow are the loops with live headers, in the same order. -/
theorem naturalLoopsFrom_live :
    (flow.live entry).naturalLoopsFrom entry =
      (flow.naturalLoopsFrom entry).filter fun loop => flow.isLive entry loop.header := by
  have sides : ∀ edge ∈ flow.backEdges (flow.dominators entry), edge.1 ∈ flow.nodes ∧
      flow.isLive entry edge.1 = flow.isLive entry edge.2 := by
    intro edge isBack
    obtain ⟨isNode, -, sameSide⟩ := isLive_of_backEdge separate isEntry isBack
    exact ⟨isNode, sameSide⟩
  unfold naturalLoopsFrom
  rw [backEdges_live separate isEntry]
  generalize flow.backEdges (flow.dominators entry) = edges at sides
  simp only
  have headers : ((edges.filter fun edge => flow.isLive entry edge.2).map (·.2)).eraseDups =
      (edges.map (·.2)).eraseDups.filter (flow.isLive entry) := by
    rw [filter_eraseDups, List.filter_map]
    rfl
  rw [headers, List.filter_map]
  apply List.map_congr_left
  intro header listed
  have headerLive : flow.isLive entry header = true := (List.mem_filter.mp listed).2
  have sources : (edges.filter fun edge => flow.isLive entry edge.2).filter (·.2 = header) =
      edges.filter (·.2 = header) := by
    rw [List.filter_filter]
    apply List.filter_congr
    intro edge _
    by_cases same : edge.2 = header
    · simp [same, isLive_iff.mp headerLive]
    · simp [same]
  rw [sources]
  apply loopOf_live separate
  intro source isSource
  obtain ⟨edge, isEdge, rfl⟩ := List.mem_map.mp isSource
  obtain ⟨isBack, same⟩ := List.mem_filter.mp isEdge
  obtain ⟨isNode, sameSide⟩ := sides edge isBack
  exact ⟨isNode, sameSide.trans (of_decide_eq_true same ▸ headerLive)⟩

theorem oneSided_naturalLoopsFrom :
    ∀ loop ∈ flow.naturalLoopsFrom entry, LoopNest.OneSided (flow.isLive entry) loop := by
  intro loop listed
  obtain ⟨header, isHeader, rfl⟩ := List.mem_map.mp listed
  rw [List.mem_eraseDups] at isHeader
  refine ⟨by simp [loopOf, Loop.ofMembers], fun node isMember => ?_⟩
  simp only [loopOf, Loop.ofMembers, List.mem_eraseDups, List.mem_cons] at isMember ⊢
  rcases isMember with rfl | gathered
  · rfl
  · refine (forall_mem_gather (P := fun n => n ∈ flow.nodes ∧
      flow.isLive entry n = flow.isLive entry header) ?_ ?_ node gathered).2
    · rintro n ⟨isNode, sameSide⟩ source isSource
      exact ⟨(mem_predecessors.mp isSource).1,
        (isLive_of_predecessor separate isNode isSource).trans sameSide⟩
    · intro source isSource
      obtain ⟨edge, isEdge, rfl⟩ := List.mem_map.mp isSource
      obtain ⟨isBack, same⟩ := List.mem_filter.mp isEdge
      obtain ⟨isNode, -, sameSide⟩ := isLive_of_backEdge separate isEntry isBack
      exact ⟨isNode, of_decide_eq_true same ▸ sameSide⟩

end Sealed

theorem naturalLoops_of_first {rest : List α} (first : flow.nodes = entry :: rest) :
    flow.naturalLoops none = flow.naturalLoopsFrom entry := by
  simp [naturalLoops, first]

/-- A step closes a loop if its target lies on every path from a root to its source. If no step leads
    from dead code into live code, then the depths of live statements are those of the live flow alone,
    and only paths from the entry matter to their steps. -/
theorem depths_ignore_sealed_dead_code {rest : List α} (first : flow.nodes = entry :: rest) :
    (∀ source header, (source, header) ∈ flow.backEdges (flow.dominators entry) ↔
      flow.Steps source header ∧ ∀ root path, flow.IsRoot entry root →
        flow.IsPath root path source → header ∈ path) ∧
    (flow.Sealed entry →
      (∀ node, flow.Reaches entry node →
        (LoopNest.ofLoops (flow.naturalLoops none)).depths.lookup node =
          (LoopNest.ofLoops ((flow.live entry).naturalLoops none)).depths.lookup node) ∧
      ∀ source header, flow.Reaches entry source → header ∈ flow.next source →
        ((source, header) ∈ flow.backEdges (flow.dominators entry) ↔
          ∀ path, flow.IsPath entry path source → header ∈ path)) := by
  have isEntry : entry ∈ flow.nodes := first ▸ List.mem_cons_self
  refine ⟨fun source header => mem_backEdges isEntry, fun separate => ⟨?_, ?_⟩⟩
  · intro node reaches
    rw [naturalLoops_of_first first, naturalLoops_of_first (live_of_first first),
      naturalLoopsFrom_live separate isEntry]
    exact (LoopNest.lookup_depths_filter (oneSided_naturalLoopsFrom separate isEntry)
      (isLive_iff.mpr reaches)).symm
  · intro source header reaches isNext
    rw [mem_backEdges isEntry, separate.dominates_iff reaches]
    constructor
    · exact And.right
    · intro onPaths
      obtain ⟨path, isPath⟩ := reaches.exists_path
      refine ⟨⟨?_, ?_, isNext⟩, onPaths⟩
      · exact mem_nodes_of_mem_path isEntry isPath isPath.last_mem
      · exact mem_nodes_of_mem_path isEntry isPath (onPaths path isPath)

end Loops

/-! ## A loop beside dead code -/

/-- The entry 0, a loop of 1 and 2, and a statement 3 that nothing else leads to. -/
def besideDeadCode (next : List Nat) : Flow Nat where
  nodes := [0, 1, 2, 3]
  next
    | 0 => [1]
    | 1 => [2]
    | 2 => [1]
    | 3 => next
    | _ => []

theorem reaches_besideDeadCode (next : List Nat) {node : Nat} :
    (besideDeadCode next).Reaches 0 node ↔ node ∈ [0, 1, 2] := by
  constructor
  · intro reaches
    induction reaches with
    | refl => simp
    | tail _ steps ih =>
        obtain ⟨-, -, isNext⟩ := steps
        fin_cases ih <;> simp_all [besideDeadCode]
  · intro isLive
    have one : (besideDeadCode next).Reaches 0 1 := .single (by simp [Steps, besideDeadCode])
    have two : (besideDeadCode next).Reaches 0 2 := one.tail (by simp [Steps, besideDeadCode])
    fin_cases isLive
    · exact .refl
    · exact one
    · exact two

theorem live_besideDeadCode (next : List Nat) :
    (besideDeadCode next).live 0 =
      { nodes := [0, 1, 2]
        next := fun node => ((besideDeadCode next).next node).filter (· ∈ [0, 1, 2]) } := by
  have isLive : (besideDeadCode next).isLive 0 = fun node => decide (node ∈ [0, 1, 2]) := by
    funext node
    rw [Bool.eq_iff_iff, isLive_iff, reaches_besideDeadCode, decide_eq_true_iff]
  unfold live
  rw [isLive]
  rfl

/-- Dead code that only leads to itself leaves the loop and its depth alone. -/
theorem depths_ignore_sealed_dead_code_beside_loop :
    (besideDeadCode [3]).Sealed 0 ∧ (besideDeadCode [3]).Reaches 0 1 ∧
      (LoopNest.ofLoops ((besideDeadCode [3]).naturalLoops none)).depths.lookup 1 =
        (LoopNest.ofLoops (((besideDeadCode [3]).live 0).naturalLoops none)).depths.lookup 1 ∧
      ((2, 1) ∈ (besideDeadCode [3]).backEdges ((besideDeadCode [3]).dominators 0) ↔
        ∀ path, (besideDeadCode [3]).IsPath 0 path 2 → 1 ∈ path) := by
  have isSealed : (besideDeadCode [3]).Sealed 0 := by
    intro source target steps reaches
    rw [reaches_besideDeadCode] at reaches ⊢
    obtain ⟨isSource, -, isNext⟩ := steps
    fin_cases isSource <;> simp_all [besideDeadCode]
  have one : (besideDeadCode [3]).Reaches 0 1 := (reaches_besideDeadCode [3]).mpr (by decide)
  have two : (besideDeadCode [3]).Reaches 0 2 := (reaches_besideDeadCode [3]).mpr (by decide)
  have first : (besideDeadCode [3]).nodes = 0 :: [1, 2, 3] := rfl
  obtain ⟨depths, backEdges⟩ := (depths_ignore_sealed_dead_code first).2 isSealed
  exact ⟨isSealed, one, depths 1 one, backEdges 2 1 two (by decide)⟩

/-- Dead code that leads into the loop hides it from the live code: a live statement of the loop loses
    its depth, although every path from the entry to the end of the loop passes the header. -/
theorem dead_code_hides_loop :
    (besideDeadCode [2]).Reaches 0 1 ∧
      (LoopNest.ofLoops ((besideDeadCode [2]).naturalLoops none)).depths.lookup 1 = none ∧
      (LoopNest.ofLoops (((besideDeadCode [2]).live 0).naturalLoops none)).depths.lookup 1 =
        some 1 ∧
      (2, 1) ∉ (besideDeadCode [2]).backEdges ((besideDeadCode [2]).dominators 0) ∧
      ∀ path, (besideDeadCode [2]).IsPath 0 path 2 → 1 ∈ path := by
  refine ⟨(reaches_besideDeadCode [2]).mpr (by decide), by cbv, ?_, ?_, ?_⟩
  · rw [live_besideDeadCode]
    cbv
  · intro isBack
    have none : (besideDeadCode [2]).backEdges ((besideDeadCode [2]).dominators 0) = [] := by cbv
    rw [none] at isBack
    cases isBack
  · intro path isPath
    cases isPath with
    | step before steps =>
        have isMiddle := (reaches_besideDeadCode [2]).mp before.reaches
        obtain ⟨-, -, isNext⟩ := steps
        fin_cases isMiddle <;> simp_all [besideDeadCode]
        exact before.last_mem

end CallWeight.Flow
