import CallWeight.Proofs.LocalCosts

/-! # Loop nests in parts

If the statements of a body fall into two parts and no loop has statements of both, then each part has
a nest of its own: leaving out the loops of one part changes no depth in the other. The order of the
nest matters here, because the level of a loop is told by the first loop that encloses it.
-/

namespace CallWeight

namespace LoopNest

variable {α : Type} [DecidableEq α]

/-- Whether a loop has its header among its members, and members on one side of a test only. -/
structure OneSided (keep : α → Bool) (loop : Loop α) : Prop where
  header : loop.header ∈ loop.members
  members : ∀ n ∈ loop.members, keep n = keep loop.header

section Parts

variable {keep : α → Bool}

theorem OneSided.keep_eq {inner outer : Loop α} (one : OneSided keep inner)
    (other : OneSided keep outer) (within : inner.within outer = true) :
    keep inner.header = keep outer.header := by
  have all : ∀ n ∈ inner.members, n ∈ outer.members := by
    simpa [Loop.within, Loop.contains] using within
  exact other.members _ (all _ one.header)

theorem OneSided.keep_of_contains {loop : Loop α} {statement : α} (one : OneSided keep loop)
    (contains : loop.contains statement = true) : keep loop.header = keep statement := by
  simp only [Loop.contains, List.contains_iff_mem] at contains
  exact (one.members statement contains).symm

/-- Loops with the same members are kept or left out together. -/
theorem any_sameMembers_filter {kept : List (Loop α)} {loop : Loop α} (one : OneSided keep loop)
    (others : ∀ other ∈ kept, OneSided keep other) (isKept : keep loop.header = true) :
    (kept.filter fun other => keep other.header).any loop.sameMembers =
      kept.any loop.sameMembers := by
  rw [Bool.eq_iff_iff, List.any_eq_true, List.any_eq_true]
  constructor
  · rintro ⟨other, listed, same⟩
    exact ⟨other, (List.mem_filter.mp listed).1, same⟩
  · rintro ⟨other, listed, same⟩
    have within : loop.within other = true := by
      simp only [Loop.sameMembers, Bool.and_eq_true] at same
      exact same.1.2
    have together := one.keep_eq (others other listed) within
    exact ⟨other, List.mem_filter.mpr ⟨listed, together ▸ isKept⟩, same⟩

theorem distinct_subset (loops : List (Loop α)) : distinct loops ⊆ loops := by
  unfold distinct
  suffices fromAny : ∀ kept : List (Loop α), loops.foldl
      (fun kept loop => if kept.any loop.sameMembers then kept else kept ++ [loop]) kept ⊆
        kept ++ loops from fromAny []
  induction loops with
  | nil => simp
  | cons loop rest ih =>
      intro kept
      rw [List.foldl_cons]
      refine List.Subset.trans (ih _) ?_
      split <;> simp

theorem distinct_filter {loops : List (Loop α)} (one : ∀ loop ∈ loops, OneSided keep loop) :
    distinct (loops.filter fun loop => keep loop.header) =
      (distinct loops).filter fun loop => keep loop.header := by
  unfold distinct
  suffices fromAny : ∀ kept : List (Loop α), (∀ loop ∈ kept, OneSided keep loop) →
      (loops.filter fun loop => keep loop.header).foldl
          (fun kept loop => if kept.any loop.sameMembers then kept else kept ++ [loop])
          (kept.filter fun loop => keep loop.header) =
        (loops.foldl (fun kept loop => if kept.any loop.sameMembers then kept else kept ++ [loop])
          kept).filter fun loop => keep loop.header from fromAny [] (by simp)
  induction loops with
  | nil => simp
  | cons loop rest ih =>
      intro kept keptOne
      obtain ⟨loopOne, restOne⟩ := List.forall_mem_cons.mp one
      have nextOne : ∀ other ∈ (if kept.any loop.sameMembers then kept else kept ++ [loop]),
          OneSided keep other := by
        intro other listed
        split at listed
        · exact keptOne other listed
        · rcases List.mem_append.mp listed with old | new
          · exact keptOne other old
          · exact List.mem_singleton.mp new ▸ loopOne
      rw [List.foldl_cons, ← ih restOne _ nextOne]
      by_cases isKept : keep loop.header = true
      · rw [List.filter_cons_of_pos (by simpa using isKept), List.foldl_cons,
          any_sameMembers_filter loopOne keptOne isKept]
        congr 1
        split
        · rfl
        · simp [List.filter_append, isKept]
      · rw [List.filter_cons_of_neg (by simpa using isKept)]
        congr 1
        split
        · rfl
        · simp [List.filter_append, isKept]

theorem ofLoops_filter {loops : List (Loop α)} (one : ∀ loop ∈ loops, OneSided keep loop) :
    (ofLoops (loops.filter fun loop => keep loop.header)).loops =
      (ofLoops loops).loops.filter fun loop => keep loop.header := by
  unfold ofLoops
  rw [distinct_filter one]
  refine (filter_mergeSort ?_ ?_ _ _).symm
  · intro a b c first second
    simp only [decide_eq_true_eq] at first second ⊢
    exact Nat.le_trans first second
  · intro a b
    simpa using Nat.le_total a.size b.size

/-- The level of a loop is told by loops on its own side. -/
theorem withLevels_filter {loops : List (Loop α)} (one : ∀ loop ∈ loops, OneSided keep loop) :
    withLevels (loops.filter fun loop => keep loop.header) =
      (withLevels loops).filter fun entry => keep entry.1.header := by
  induction loops with
  | nil => rfl
  | cons loop rest ih =>
      obtain ⟨loopOne, restOne⟩ := List.forall_mem_cons.mp one
      by_cases isKept : keep loop.header = true
      · have sameOuter : ((withLevels rest).filter fun entry => keep entry.1.header).find?
              (fun entry => entry.1.encloses loop) =
            (withLevels rest).find? fun entry => entry.1.encloses loop := by
          rw [List.find?_filter]
          apply List.find?_congr
          intro entry isLevel
          have isLoop : entry.1 ∈ rest := map_fst_withLevels rest ▸ List.mem_map_of_mem isLevel
          by_cases encloses : entry.1.encloses loop = true
          · have within : loop.within entry.1 = true := by
              simp only [Loop.encloses, Bool.and_eq_true] at encloses
              exact encloses.1
            simp [encloses, ← loopOne.keep_eq (restOne _ isLoop) within, isKept]
          · simp [encloses]
        rw [List.filter_cons_of_pos (by simpa using isKept)]
        simp only [withLevels]
        rw [ih restOne, List.filter_cons_of_pos (by simpa using isKept), sameOuter]
      · rw [List.filter_cons_of_neg (by simpa using isKept)]
        simp only [withLevels]
        rw [ih restOne, List.filter_cons_of_neg (by simpa using isKept)]

theorem deepest_filter {levels : List (Loop α × Nat)} {statement : α}
    (one : ∀ entry ∈ levels, OneSided keep entry.1) (isKept : keep statement = true) :
    deepest (levels.filter fun entry => keep entry.1.header) statement =
      deepest levels statement := by
  unfold deepest
  generalize 0 = depth
  induction levels generalizing depth with
  | nil => rfl
  | cons entry rest ih =>
      obtain ⟨entryOne, restOne⟩ := List.forall_mem_cons.mp one
      by_cases side : keep entry.1.header = true
      · rw [List.filter_cons_of_pos (by simpa using side), List.foldl_cons, List.foldl_cons]
        exact ih restOne _
      · have outside : ¬ entry.1.contains statement = true := fun contains =>
          side ((entryOne.keep_of_contains contains).trans isKept)
        rw [List.filter_cons_of_neg (by simpa using side), List.foldl_cons]
        simp only [outside, if_false, Bool.false_eq_true]
        exact ih restOne depth

theorem oneSided_ofLoops {loops : List (Loop α)} (one : ∀ loop ∈ loops, OneSided keep loop) :
    ∀ loop ∈ (ofLoops loops).loops, OneSided keep loop := by
  have distinctOne : ∀ loop ∈ distinct loops, OneSided keep loop := by
    exact fun loop listed => one loop (distinct_subset loops listed)
  intro loop listed
  exact distinctOne loop (List.mem_mergeSort.mp listed)

theorem lookup_depths_eq (nest : LoopNest α) (statement : α) :
    nest.depths.lookup statement =
      if ∃ loop ∈ nest.loops, loop.contains statement = true then some (nest.depthOf statement)
      else none := by
  unfold depths depthOf
  simp only [lookup_map_pair, List.mem_eraseDups, List.mem_flatMap, Loop.contains,
    List.contains_iff_mem]

/-- Leaving out all loops on the other side changes no depth on this side. -/
theorem lookup_depths_filter {loops : List (Loop α)} (one : ∀ loop ∈ loops, OneSided keep loop)
    {statement : α} (isKept : keep statement = true) :
    (ofLoops (loops.filter fun loop => keep loop.header)).depths.lookup statement =
      (ofLoops loops).depths.lookup statement := by
  have nestOne := oneSided_ofLoops one
  have sameDepth : (ofLoops (loops.filter fun loop => keep loop.header)).depthOf statement =
      (ofLoops loops).depthOf statement := by
    unfold depthOf levels
    rw [ofLoops_filter one, withLevels_filter nestOne]
    refine deepest_filter (fun entry isLevel => nestOne entry.1 ?_) isKept
    exact map_fst_withLevels (ofLoops loops).loops ▸ List.mem_map_of_mem isLevel
  have sameInside : (∃ loop ∈ (ofLoops (loops.filter fun loop => keep loop.header)).loops,
      loop.contains statement = true) ↔
        ∃ loop ∈ (ofLoops loops).loops, loop.contains statement = true := by
    rw [ofLoops_filter one]
    constructor
    · rintro ⟨loop, listed, contains⟩
      exact ⟨loop, (List.mem_filter.mp listed).1, contains⟩
    · rintro ⟨loop, listed, contains⟩
      have side := ((nestOne loop listed).keep_of_contains contains).trans isKept
      exact ⟨loop, List.mem_filter.mpr ⟨listed, side⟩, contains⟩
  rw [lookup_depths_eq, lookup_depths_eq, sameDepth]
  simp only [sameInside]

end Parts

end LoopNest

end CallWeight
