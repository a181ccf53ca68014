import CallWeight.Loop.Natural
import Mathlib

/-! # Dominators and paths

The dominators that elimination leaves are told by paths. A path starts at a root: at the entry, or at
a statement that no statement of the body leads to. A statement dominates another one if it lies on
every path from a root to it. Elimination never drops a dominator, and when it stops, whatever is left
is handed on along every step.
-/

namespace CallWeight

namespace DominatorTable

variable {α : Type} [DecidableEq α]

theorem of_cons (node other : α) (candidates : List α) (table : DominatorTable α) :
    of ((node, candidates) :: table) other = if other = node then candidates else table.of other := by
  by_cases same : other = node
  · simp [of, same]
  · have different : (other == node) = false := by simpa using same
    simp [of, List.lookup_cons, different, same]

theorem of_keepAt (table : DominatorTable α) (node : α) (keep : α → Bool) (other : α) :
    (table.keepAt node keep).of other =
      if other = node then (table.of other).filter keep else table.of other := by
  induction table with
  | nil => simp [keepAt, of]
  | cons row rest ih =>
      obtain ⟨n, candidates⟩ := row
      unfold keepAt at ih ⊢
      rw [List.map_cons, of_cons, of_cons, ih]
      by_cases here : other = n
      · subst here
        simp
      · simp [here]

theorem weight_keepAt_le (table : DominatorTable α) (node : α) (keep : α → Bool) :
    (table.keepAt node keep).weight ≤ table.weight := by
  induction table with
  | nil => exact Nat.le_refl _
  | cons row rest ih =>
      obtain ⟨n, candidates⟩ := row
      have fewer := List.length_filter_le keep candidates
      simp only [keepAt, List.map_cons, weight] at ih ⊢
      split <;> omega

/-- Whatever loses no weight loses nothing. -/
theorem keepAt_eq_of_weight {table : DominatorTable α} {node : α} {keep : α → Bool}
    (heavy : table.weight ≤ (table.keepAt node keep).weight) : table.keepAt node keep = table := by
  induction table with
  | nil => rfl
  | cons row rest ih =>
      obtain ⟨n, candidates⟩ := row
      have fewer := List.length_filter_le keep candidates
      have lighter := weight_keepAt_le rest node keep
      simp only [keepAt, List.map_cons, weight] at ih heavy lighter ⊢
      split at heavy
      · rename_i here
        have same : candidates.filter keep = candidates :=
          List.filter_sublist.eq_of_length_le (by omega)
        rw [if_pos here, same, ih (by omega)]
      · rename_i elsewhere
        rw [if_neg elsewhere, ih (by omega)]

end DominatorTable

namespace Flow

variable {α : Type}

/-- Whether a statement of the body may run right after another one. -/
def Steps (flow : Flow α) (source target : α) : Prop :=
  source ∈ flow.nodes ∧ target ∈ flow.nodes ∧ target ∈ flow.next source

/-- A list of statements, each but the first one running right after the one before it. -/
inductive IsPath (flow : Flow α) (start : α) : List α → α → Prop
  | here : IsPath flow start [start] start
  | step {path : List α} {middle stop : α} :
      IsPath flow start path middle → flow.Steps middle stop → IsPath flow start (path ++ [stop]) stop

def Reaches (flow : Flow α) : α → α → Prop := Relation.ReflTransGen flow.Steps

theorem IsPath.reaches {flow : Flow α} {start stop : α} {path : List α}
    (isPath : flow.IsPath start path stop) : flow.Reaches start stop := by
  induction isPath with
  | here => exact .refl
  | step _ steps ih => exact ih.tail steps

theorem IsPath.last_mem {flow : Flow α} {start stop : α} {path : List α}
    (isPath : flow.IsPath start path stop) : stop ∈ path := by
  cases isPath with
  | here => simp
  | step => simp

theorem Reaches.exists_path {flow : Flow α} {start stop : α} (reaches : flow.Reaches start stop) :
    ∃ path, flow.IsPath start path stop := by
  induction reaches with
  | refl => exact ⟨[start], .here⟩
  | tail _ steps ih =>
      obtain ⟨path, isPath⟩ := ih
      exact ⟨_, isPath.step steps⟩

variable [DecidableEq α]

theorem mem_predecessors {flow : Flow α} {source node : α} :
    source ∈ flow.predecessors node ↔ source ∈ flow.nodes ∧ node ∈ flow.next source := by
  simp [predecessors]

/-- The entry, and every statement that no statement of the body leads to. -/
def IsRoot (flow : Flow α) (entry root : α) : Prop :=
  root = entry ∨ root ∈ flow.nodes ∧ flow.predecessors root = []

def Dominates (flow : Flow α) (entry dominator node : α) : Prop :=
  ∀ root path, flow.IsRoot entry root → flow.IsPath root path node → dominator ∈ path

section Elimination

variable {flow : Flow α} {entry : α} {table : DominatorTable α}

/-- What elimination keeps true of a table. -/
structure Holds (flow : Flow α) (entry : α) (table : DominatorTable α) : Prop where
  atEntry : table.of entry = [entry]
  listed : ∀ {node dominator}, node ≠ entry → dominator ∈ table.of node → dominator ∈ flow.nodes
  keeps : ∀ {node dominator}, node ∈ flow.nodes → dominator ∈ flow.nodes →
    flow.Dominates entry dominator node → dominator ∈ table.of node

theorem of_candidates {node : α} (isNode : node ∈ flow.nodes) (other : node ≠ entry) :
    (flow.candidates entry).of node = flow.nodes.eraseDups := by
  unfold candidates
  rw [DominatorTable.of_cons, if_neg other]
  have listed : node ∈ flow.nodes.eraseDups.filter (· ≠ entry) := by simp [isNode, other]
  generalize flow.nodes.eraseDups = all at listed ⊢
  generalize all.filter (· ≠ entry) = rows at listed
  induction rows with
  | nil => cases listed
  | cons row rest ih =>
      rw [List.map_cons, DominatorTable.of_cons]
      split
      · rfl
      · rename_i elsewhere
        exact ih ((List.mem_cons.mp listed).resolve_left elsewhere)

theorem of_candidates_subset {node : α} (other : node ≠ entry) :
    (flow.candidates entry).of node ⊆ flow.nodes := by
  unfold candidates
  rw [DominatorTable.of_cons, if_neg other]
  generalize flow.nodes.eraseDups.filter (· ≠ entry) = rows
  induction rows with
  | nil => simp [DominatorTable.of]
  | cons row rest ih =>
      rw [List.map_cons, DominatorTable.of_cons]
      split
      · intro dominator listed
        simpa using listed
      · exact ih

theorem Holds.candidates (flow : Flow α) (entry : α) : flow.Holds entry (flow.candidates entry) where
  atEntry := by simp [Flow.candidates, DominatorTable.of_cons]
  listed other listed := of_candidates_subset other listed
  keeps {node dominator} isNode isListed dominates := by
    by_cases same : node = entry
    · subst same
      have onPath := dominates node [node] (.inl rfl) .here
      simpa [Flow.candidates, DominatorTable.of_cons] using onPath
    · simpa [of_candidates isNode same] using isListed

/-- A dominator other than the statement itself dominates every predecessor, and there is one. -/
theorem Dominates.survives {dominator node : α} (holds : flow.Holds entry table)
    (isNode : node ∈ flow.nodes) (isListed : dominator ∈ flow.nodes)
    (dominates : flow.Dominates entry dominator node) :
    survives node ((flow.predecessors node).map table.of) dominator = true := by
  by_cases same : dominator = node
  · simp [Flow.survives, same]
  · have some : flow.predecessors node ≠ [] := by
      intro none
      have onPath := dominates node [node] (.inr ⟨isNode, none⟩) .here
      exact same (List.mem_singleton.mp onPath)
    have all : ∀ source ∈ flow.predecessors node, dominator ∈ table.of source := by
      intro source isSource
      obtain ⟨isSourceNode, isNext⟩ := mem_predecessors.mp isSource
      apply holds.keeps isSourceNode isListed
      intro root path isRoot isPath
      have onPath := dominates root _ isRoot (isPath.step ⟨isSourceNode, isNode, isNext⟩)
      rcases List.mem_append.mp onPath with before | last
      · exact before
      · exact absurd (List.mem_singleton.mp last) same
    simp only [Flow.survives, Bool.or_eq_true, Bool.and_eq_true]
    refine .inr ⟨by simpa using some, ?_⟩
    simpa using all

theorem Holds.eliminateAt (holds : flow.Holds entry table) {node : α} (other : node ≠ entry) :
    flow.Holds entry (flow.eliminateAt table node) where
  atEntry := by
    rw [Flow.eliminateAt, DominatorTable.of_keepAt, if_neg (Ne.symm other), holds.atEntry]
  listed {n dominator} isOther isLeft := by
    rw [Flow.eliminateAt, DominatorTable.of_keepAt] at isLeft
    split at isLeft
    · exact holds.listed isOther (List.mem_filter.mp isLeft).1
    · exact holds.listed isOther isLeft
  keeps {n dominator} isNode isListed dominates := by
    have old := holds.keeps isNode isListed dominates
    rw [Flow.eliminateAt, DominatorTable.of_keepAt]
    split
    · rename_i here
      subst here
      exact List.mem_filter.mpr ⟨old, dominates.survives holds isNode isListed⟩
    · exact old

theorem Holds.eliminate (holds : flow.Holds entry table) (order : List α) :
    flow.Holds entry (flow.eliminate entry order table) := by
  unfold Flow.eliminate
  induction order generalizing table with
  | nil => exact holds
  | cons node rest ih =>
      rw [List.foldl_cons]
      apply ih
      split
      · exact holds
      · rename_i other
        exact holds.eliminateAt other

theorem Holds.settle (holds : flow.Holds entry table) (order : List α) :
    flow.Holds entry (flow.settle entry order table) := by
  fun_induction Flow.settle flow entry order table with
  | case1 table reduced lighter ih => exact ih (holds.eliminate order)
  | case2 table reduced settled => exact holds.eliminate order

theorem weight_eliminate_le (flow : Flow α) (entry : α) (order : List α)
    (table : DominatorTable α) : (flow.eliminate entry order table).weight ≤ table.weight := by
  unfold eliminate
  induction order generalizing table with
  | nil => exact Nat.le_refl _
  | cons node rest ih =>
      rw [List.foldl_cons]
      apply Nat.le_trans (ih _)
      split
      · exact Nat.le_refl _
      · exact DominatorTable.weight_keepAt_le _ _ _

/-- A round that drops nothing leaves the table alone at each of its statements. -/
theorem eliminate_eq_of_weight {order : List α} {table : DominatorTable α}
    (heavy : table.weight ≤ (flow.eliminate entry order table).weight) :
    flow.eliminate entry order table = table ∧
      ∀ node ∈ order, node ≠ entry → flow.eliminateAt table node = table := by
  induction order with
  | nil => exact ⟨rfl, by simp⟩
  | cons node rest ih =>
      have unfolded : flow.eliminate entry (node :: rest) table =
          flow.eliminate entry rest
            (if node = entry then table else flow.eliminateAt table node) := rfl
      have later := weight_eliminate_le flow entry rest
        (if node = entry then table else flow.eliminateAt table node)
      rw [unfolded] at heavy ⊢
      by_cases isEntry : node = entry
      · simp only [isEntry, if_true] at heavy ⊢
        obtain ⟨same, others⟩ := ih heavy
        refine ⟨same, fun n listed other => ?_⟩
        rcases List.mem_cons.mp listed with same | inRest
        · exact absurd same other
        · exact others n inRest other
      · simp only [isEntry, if_false] at heavy later ⊢
        have first : flow.eliminateAt table node = table :=
          DominatorTable.keepAt_eq_of_weight (Nat.le_trans heavy later)
        rw [first] at heavy ⊢
        obtain ⟨same, others⟩ := ih heavy
        refine ⟨same, fun n listed other => ?_⟩
        rcases List.mem_cons.mp listed with rfl | inRest
        · exact first
        · exact others n inRest other

/-- Whatever is left when elimination stops would survive another round. -/
theorem survives_settle {order : List α} {node dominator : α} (listed : node ∈ order)
    (other : node ≠ entry) (isLeft : dominator ∈ (flow.settle entry order table).of node) :
    survives node ((flow.predecessors node).map (flow.settle entry order table).of) dominator =
      true := by
  fun_induction Flow.settle flow entry order table with
  | case1 table reduced lighter ih => exact ih isLeft
  | case2 table reduced settled =>
      obtain ⟨same, stable⟩ := eliminate_eq_of_weight (Nat.le_of_not_lt settled)
      have kept := stable node listed other
      simp only [reduced, same] at isLeft ⊢
      rw [← kept, eliminateAt, DominatorTable.of_keepAt, if_pos rfl] at isLeft
      exact (List.mem_filter.mp isLeft).2

theorem mem_path_of_settled {order : List α} (holds : flow.Holds entry table)
    (complete : flow.nodes ⊆ order) {root node dominator : α} {path : List α}
    (isRoot : flow.IsRoot entry root) (isPath : flow.IsPath root path node)
    (isNode : node ∈ flow.nodes)
    (isLeft : dominator ∈ (flow.settle entry order table).of node) : dominator ∈ path := by
  have settled := holds.settle order
  -- A candidate is the last statement of the path or was handed on by the one before it.
  have handedOn {n : α} (isNode : n ∈ flow.nodes) (other : n ≠ entry)
      (isLeft : dominator ∈ (flow.settle entry order table).of n) :
      dominator = n ∨ flow.predecessors n ≠ [] ∧
        ∀ source ∈ flow.predecessors n, dominator ∈ (flow.settle entry order table).of source := by
    have survived := survives_settle (complete isNode) other isLeft
    simpa [Flow.survives] using survived
  have atEntry (isLeft : dominator ∈ (flow.settle entry order table).of entry) :
      dominator = entry := by
    rw [settled.atEntry] at isLeft
    exact List.mem_singleton.mp isLeft
  induction isPath with
  | here =>
      apply List.mem_singleton.mpr
      by_cases isEntry : root = entry
      · subst isEntry
        exact atEntry isLeft
      · rcases handedOn isNode isEntry isLeft with same | ⟨some, -⟩
        · exact same
        · exact absurd (isRoot.resolve_left isEntry).2 some
  | @step path middle stop before steps ih =>
      apply List.mem_append.mpr
      by_cases isEntry : stop = entry
      · subst isEntry
        exact .inr (List.mem_singleton.mpr (atEntry isLeft))
      · rcases handedOn isNode isEntry isLeft with same | ⟨-, sources⟩
        · exact .inr (List.mem_singleton.mpr same)
        · exact .inl (ih steps.1 (sources middle (mem_predecessors.mpr ⟨steps.1, steps.2.2⟩)))

end Elimination

/-- The dominators that are found are those that all paths from roots show. -/
theorem mem_dominators {flow : Flow α} {entry node dominator : α} (isEntry : entry ∈ flow.nodes)
    (isNode : node ∈ flow.nodes) :
    dominator ∈ (flow.dominators entry).of node ↔
      dominator ∈ flow.nodes ∧ flow.Dominates entry dominator node := by
  have holds := Holds.candidates flow entry
  have complete : flow.nodes ⊆ flow.searchOrder entry ++ flow.nodes := List.subset_append_right _ _
  have settled := holds.settle (flow.searchOrder entry ++ flow.nodes)
  constructor
  · intro isLeft
    refine ⟨?_, fun root path isRoot isPath =>
      mem_path_of_settled holds complete isRoot isPath isNode isLeft⟩
    by_cases same : node = entry
    · subst same
      have isSelf : dominator ∈ [node] := settled.atEntry ▸ isLeft
      exact List.mem_singleton.mp isSelf ▸ isEntry
    · exact settled.listed same isLeft
  · rintro ⟨isListed, dominates⟩
    exact settled.keeps isNode isListed dominates

end Flow

end CallWeight
