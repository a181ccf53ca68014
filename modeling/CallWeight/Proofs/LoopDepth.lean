import CallWeight.Proofs.LoopNests

/-! # Depth as a number of loops

If the loops around a statement lie inside each other, then the first loop of a nest that encloses one
of them is the next larger one around the statement. So no loop is left out when levels are counted, and
the depth of the statement is the number of loops around it.
-/

namespace CallWeight

namespace Loop

variable {α : Type}

/-- Two loops share no member, or one of them lies inside the other. -/
def Nested (a b : Loop α) : Prop :=
  a.members.Disjoint b.members ∨ a.members ⊆ b.members ∨ b.members ⊆ a.members

theorem Nested.symm {a b : Loop α} (nested : a.Nested b) : b.Nested a := by
  rcases nested with apart | forth | back
  · exact .inl apart.symm
  · exact .inr (.inr forth)
  · exact .inr (.inl back)

variable [DecidableEq α]

theorem within_iff {inner outer : Loop α} :
    inner.within outer = true ↔ inner.members ⊆ outer.members := by
  simp [within, contains, List.subset_def]

theorem contains_iff {loop : Loop α} {statement : α} :
    loop.contains statement = true ↔ statement ∈ loop.members := by
  simp [contains]

theorem encloses_iff {outer inner : Loop α} :
    outer.encloses inner = true ↔
      inner.members ⊆ outer.members ∧ ¬ outer.members ⊆ inner.members := by
  simp [encloses, ← within_iff]

theorem sameMembers_iff {a b : Loop α} (aDistinct : a.members.Nodup) (bDistinct : b.members.Nodup) :
    a.sameMembers b = true ↔ a.members ⊆ b.members ∧ b.members ⊆ a.members := by
  simp only [sameMembers, Bool.and_eq_true, decide_eq_true_eq, within_iff]
  constructor
  · rintro ⟨⟨-, forth⟩, back⟩
    exact ⟨forth, back⟩
  · rintro ⟨forth, back⟩
    have fewer := (aDistinct.subperm forth).length_le
    have more := (bDistinct.subperm back).length_le
    exact ⟨⟨Nat.le_antisymm fewer more, forth⟩, back⟩

end Loop

namespace LoopNest

variable {α : Type} [DecidableEq α]

/-- What is true of the loops of a nest around a statement if they lie inside each other: the later
    one of two has all members of the earlier one, and some more. -/
def Ascends (statement : α) (loops : List (Loop α)) : Prop :=
  loops.Pairwise fun a b =>
    a.contains statement = true → b.contains statement = true → b.encloses a = true

theorem deepest_from (levels : List (Loop α × Nat)) (statement : α) (depth : Nat) :
    levels.foldl
        (fun depth entry => if entry.1.contains statement then max depth entry.2 else depth) depth =
      max depth (deepest levels statement) := by
  have unfolded (levels : List (Loop α × Nat)) : deepest levels statement =
      levels.foldl
        (fun depth entry => if entry.1.contains statement then max depth entry.2 else depth) 0 := rfl
  rw [unfolded]
  induction levels generalizing depth with
  | nil => simp
  | cons entry rest ih =>
      rw [List.foldl_cons, List.foldl_cons, ih,
        ih (if entry.1.contains statement = true then max 0 entry.2 else 0)]
      split <;> simp [max_assoc]

theorem deepest_cons (loop : Loop α) (level : Nat) (rest : List (Loop α × Nat)) (statement : α) :
    deepest ((loop, level) :: rest) statement =
      if loop.contains statement = true then max level (deepest rest statement)
      else deepest rest statement := by
  have first := deepest_from rest statement (if loop.contains statement then max 0 level else 0)
  refine first.trans ?_
  split <;> simp

/-- Every loop that encloses a loop around a statement is around the statement too. -/
theorem find_encloses {loop : Loop α} {statement : α} {loops : List (Loop α)}
    (around : loop.contains statement = true)
    (larger : ∀ other ∈ loops, other.contains statement = true → other.encloses loop = true) :
    (withLevels loops).find? (fun entry => entry.1.encloses loop) =
      (withLevels loops).find? fun entry => entry.1.contains statement := by
  apply List.find?_congr
  intro entry isLevel
  have isLoop : entry.1 ∈ loops := map_fst_withLevels loops ▸ List.mem_map_of_mem isLevel
  rw [Bool.eq_iff_iff]
  constructor
  · intro encloses
    exact Loop.contains_iff.mpr ((Loop.encloses_iff.mp encloses).1 (Loop.contains_iff.mp around))
  · exact larger entry.1 isLoop

/-- The first loop around a statement has as its level the number of all of them, and no other one has
    a greater level. -/
theorem level_eq_countP {statement : α} {loops : List (Loop α)} (ascends : Ascends statement loops) :
    (((withLevels loops).find? fun entry => entry.1.contains statement).map (·.2)).getD 0 =
        loops.countP (·.contains statement) ∧
      deepest (withLevels loops) statement = loops.countP (·.contains statement) := by
  induction loops with
  | nil => exact ⟨rfl, rfl⟩
  | cons loop rest ih =>
      obtain ⟨larger, restAscends⟩ := List.pairwise_cons.mp ascends
      obtain ⟨first, deepest⟩ := ih restAscends
      simp only [withLevels, deepest_cons, List.countP_cons, List.find?_cons]
      by_cases around : loop.contains statement = true
      · have sameOuter := find_encloses around fun other listed => larger other listed around
        simp only [around, sameOuter, first, deepest, if_true]
        exact ⟨rfl, by omega⟩
      · simp only [around, first, deepest, if_false, Bool.false_eq_true]
        exact ⟨rfl, rfl⟩

theorem distinct_eq_self {loops : List (Loop α)}
    (differ : loops.Pairwise fun a b => b.sameMembers a = false) : distinct loops = loops := by
  unfold distinct
  suffices fromAny : ∀ kept : List (Loop α),
      (kept ++ loops).Pairwise (fun a b => b.sameMembers a = false) →
        loops.foldl (fun kept loop => if kept.any loop.sameMembers then kept else kept ++ [loop])
          kept = kept ++ loops from fromAny [] differ
  clear differ
  induction loops with
  | nil => simp
  | cons loop rest ih =>
      intro kept differ
      have isNew : kept.any loop.sameMembers = false := by
        rw [List.any_eq_false]
        intro other listed
        simpa using (List.pairwise_append.mp differ).2.2 other listed loop List.mem_cons_self
      rw [List.foldl_cons, if_neg (by simp [isNew]), ih _ (by simpa using differ)]
      simp

theorem sizes_ascend (loops : List (Loop α)) :
    (ofLoops loops).loops.Pairwise fun a b => a.size ≤ b.size := by
  have ordered : (ofLoops loops).loops.Pairwise fun a b => decide (a.size ≤ b.size) = true := by
    apply List.pairwise_mergeSort
    · intro a b c first second
      simp only [decide_eq_true_eq] at first second ⊢
      omega
    · intro a b
      simpa using Nat.le_total a.size b.size
  simpa using ordered

/-- Different loops around a statement that lie inside each other ascend as soon as their sizes do. -/
theorem ascends_of_sizes {statement : α} {loops : List (Loop α)}
    (repeatFree : ∀ loop ∈ loops, loop.members.Nodup)
    (ascending : loops.Pairwise fun a b => a.size ≤ b.size)
    (differ : loops.Pairwise fun a b => ¬ (a.members ⊆ b.members ∧ b.members ⊆ a.members))
    (comparable : loops.Pairwise fun a b => statement ∈ a.members → statement ∈ b.members →
      a.members ⊆ b.members ∨ b.members ⊆ a.members) : Ascends statement loops := by
  refine (ascending.and (differ.and comparable)).imp_of_mem ?_
  rintro a b - isB ⟨smaller, apart, comparable⟩ inA inB
  rw [Loop.contains_iff] at inA inB
  rw [Loop.encloses_iff]
  rcases comparable inA inB with forth | back
  · exact ⟨forth, fun back => apart ⟨forth, back⟩⟩
  · -- A loop inside one of at most its own size has the same members.
    have same : b.members.Perm a.members :=
      ((repeatFree b isB).subperm back).perm_of_length_le smaller
    exact absurd ⟨same.symm.subset, back⟩ apart

/-- If loops repeat no statement, differ from each other and are nested, then the depth of a statement is
    the number of loops around it. -/
theorem depth_eq_countP {loops : List (Loop α)} (repeatFree : ∀ loop ∈ loops, loop.members.Nodup)
    (differ : loops.Pairwise fun a b => ¬ (a.members ⊆ b.members ∧ b.members ⊆ a.members))
    (nested : loops.Pairwise Loop.Nested) (statement : α) :
    ((ofLoops loops).depths.lookup statement).getD 0 = loops.countP (·.contains statement) := by
  have keepsAll : distinct loops = loops := by
    apply distinct_eq_self
    refine differ.imp_of_mem fun {a b} isA isB apart => ?_
    rw [Bool.eq_false_iff, Ne, Loop.sameMembers_iff (repeatFree b isB) (repeatFree a isA)]
    exact fun same => apart same.symm
  have sorted : List.Perm (ofLoops loops).loops loops := by
    simpa [ofLoops, keepsAll] using List.mergeSort_perm loops _
  have ascends : Ascends statement (ofLoops loops).loops := by
    apply ascends_of_sizes (fun loop listed => repeatFree loop (sorted.mem_iff.mp listed))
      (sizes_ascend loops)
    · exact (sorted.pairwise_iff fun apart same => apart same.symm).mpr differ
    · refine ((sorted.pairwise_iff Loop.Nested.symm).mpr nested).imp fun nested inA inB => ?_
      exact nested.resolve_left fun disjoint => disjoint inA inB
  calc ((ofLoops loops).depths.lookup statement).getD 0
      = (ofLoops loops).depthOf statement := lookup_depths _ _
    _ = (ofLoops loops).loops.countP (·.contains statement) := (level_eq_countP ascends).2
    _ = loops.countP (·.contains statement) := sorted.countP_eq _

end LoopNest

end CallWeight
