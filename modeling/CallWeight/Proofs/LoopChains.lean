import CallWeight.Proofs.LoopDepth

/-! # Depth as the length of a chain

Loops that are given one by one may overlap, repeat and come in any order. What is left of nesting is
the climb: from a loop to the first larger one that encloses it, and on from there. Every climb ends,
because every step is to a larger set of statements, and the depth of a statement is the length of the
longest climb that starts around it. So the depth never exceeds the length of a chain of loops around
the statement. Only if the loops around the statement all compare does the climb miss none of them, and
then the depth is their number.
-/

namespace CallWeight

namespace Loop

variable {α : Type} [DecidableEq α]

/-- The set of statements of a loop. -/
def statements (loop : Loop α) : Finset α := loop.members.toFinset

theorem mem_statements {loop : Loop α} {statement : α} :
    statement ∈ loop.statements ↔ statement ∈ loop.members := List.mem_toFinset

theorem statements_subset {a b : Loop α} : a.statements ⊆ b.statements ↔ a.members ⊆ b.members := by
  simp only [Finset.subset_iff, mem_statements, List.subset_def]

theorem statements_ssubset {inner outer : Loop α} :
    inner.statements ⊂ outer.statements ↔ outer.encloses inner = true := by
  rw [encloses_iff, Finset.ssubset_def, statements_subset, statements_subset]

theorem card_statements {loop : Loop α} (repeatFree : loop.members.Nodup) :
    loop.statements.card = loop.size := List.toFinset_card_of_nodup repeatFree

theorem statements_eq_iff {a b : Loop α} (aDistinct : a.members.Nodup) (bDistinct : b.members.Nodup) :
    a.statements = b.statements ↔ a.sameMembers b = true := by
  rw [sameMembers_iff aDistinct bDistinct, Finset.Subset.antisymm_iff, statements_subset,
    statements_subset]

end Loop

namespace LoopNest

variable {α : Type} [DecidableEq α]

section Kept

variable {loops : List (Loop α)}

theorem mem_of_mem_ofLoops {loop : Loop α} (kept : loop ∈ (ofLoops loops).loops) : loop ∈ loops :=
  distinct_subset loops (List.mem_mergeSort.mp kept)

/-- Whether the kept loops have the statements of the given ones, each set of statements once. -/
structure Represents (kept given : List (Loop α)) : Prop where
  apart : kept.Pairwise fun a b => a.statements ≠ b.statements
  covers : ∀ loop ∈ given, ∃ found ∈ kept, found.statements = loop.statements

theorem Represents.known {kept given : List (Loop α)} (represents : Represents kept given)
    {loop found : Loop α} (isKept : found ∈ kept) (same : found.statements = loop.statements) :
    Represents kept (given ++ [loop]) where
  apart := represents.apart
  covers other listed := by
    rcases List.mem_append.mp listed with isGiven | isLast
    · exact represents.covers other isGiven
    · obtain rfl := List.mem_singleton.mp isLast
      exact ⟨found, isKept, same⟩

theorem Represents.new {kept given : List (Loop α)} (represents : Represents kept given)
    {loop : Loop α} (differs : ∀ found ∈ kept, found.statements ≠ loop.statements) :
    Represents (kept ++ [loop]) (given ++ [loop]) where
  apart := by
    refine List.pairwise_append.mpr ⟨represents.apart, List.pairwise_singleton _ _, ?_⟩
    intro found isKept last isLast
    obtain rfl := List.mem_singleton.mp isLast
    exact differs found isKept
  covers other listed := by
    rcases List.mem_append.mp listed with isGiven | isLast
    · obtain ⟨found, isKept, same⟩ := represents.covers other isGiven
      exact ⟨found, List.mem_append_left _ isKept, same⟩
    · exact ⟨other, List.mem_append_right _ isLast, rfl⟩

theorem represents_distinct (repeatFree : ∀ loop ∈ loops, loop.members.Nodup) :
    Represents (distinct loops) loops := by
  -- The loops are taken in from the front, so the induction is on the last one.
  induction loops using List.reverseRecOn with
  | nil => exact ⟨.nil, by simp⟩
  | append_singleton given loop ih =>
      obtain ⟨givenFree, loopFree⟩ := List.forall_mem_append.mp repeatFree
      have represents := ih givenFree
      have same_iff {found : Loop α} (isKept : found ∈ distinct given) :
          loop.statements = found.statements ↔ loop.sameMembers found = true :=
        Loop.statements_eq_iff (loopFree loop List.mem_cons_self)
          (givenFree found (distinct_subset given isKept))
      unfold distinct at represents same_iff ⊢
      rw [List.foldl_append, List.foldl_cons, List.foldl_nil]
      split
      case isTrue isKnown =>
        obtain ⟨found, isKept, same⟩ := List.any_eq_true.mp isKnown
        exact represents.known isKept ((same_iff isKept).mpr same).symm
      case isFalse isNew =>
        refine represents.new fun found isKept same => isNew (List.any_eq_true.mpr ?_)
        exact ⟨found, isKept, (same_iff isKept).mp same.symm⟩

/-- A loop that a nest leaves out has the statements of one that it keeps. -/
theorem exists_kept (repeatFree : ∀ loop ∈ loops, loop.members.Nodup) {loop : Loop α}
    (listed : loop ∈ loops) :
    ∃ kept ∈ (ofLoops loops).loops, kept.statements = loop.statements := by
  simp only [ofLoops, List.mem_mergeSort]
  exact (represents_distinct repeatFree).covers loop listed

/-- No two loops of a nest have the same statements. -/
theorem pairwise_statements_ne (repeatFree : ∀ loop ∈ loops, loop.members.Nodup) :
    (ofLoops loops).loops.Pairwise fun a b => a.statements ≠ b.statements := by
  have sorted : (ofLoops loops).loops.Perm (distinct loops) := List.mergeSort_perm _ _
  rw [sorted.pairwise_iff fun apart => apart.symm]
  exact (represents_distinct repeatFree).apart

end Kept

/-- The loops met on the way up from a loop, itself first. A climb that ends is a proof that the way up
    does. -/
inductive Climb (nest : LoopNest α) : Loop α → List (Loop α) → Prop
  | top {loop : Loop α} (outermost : nest.higher? loop = none) : Climb nest loop [loop]
  | up {loop outer : Loop α} {chain : List (Loop α)} (next : nest.higher? loop = some outer)
      (further : Climb nest outer chain) : Climb nest loop (loop :: chain)

theorem Climb.ne_nil {nest : LoopNest α} {loop : Loop α} {chain : List (Loop α)}
    (climb : nest.Climb loop chain) : chain ≠ [] := by
  cases climb <;> simp

/-- A climb is a chain: each loop is strictly inside all later ones, and all but the first are loops of
    the nest. -/
theorem Climb.chain {nest : LoopNest α} {loop : Loop α} {chain : List (Loop α)}
    (climb : nest.Climb loop chain) :
    chain.Pairwise (·.statements ⊂ ·.statements) ∧
      ∀ outer ∈ chain, loop.statements ⊆ outer.statements ∧ (outer = loop ∨ outer ∈ nest.loops) := by
  induction climb with
  | top => simp
  | @up loop outer chain next _ ih =>
      obtain ⟨increasing, above⟩ := ih
      have step := List.find?_some next
      have strict : loop.statements ⊂ outer.statements :=
        Loop.statements_ssubset.mpr (Bool.and_eq_true_iff.mp step).2
      have isLoop : outer ∈ nest.loops := List.mem_of_find?_eq_some next
      refine ⟨List.pairwise_cons.mpr ⟨fun later listed => ?_, increasing⟩, fun later listed => ?_⟩
      · exact strict.trans_subset (above later listed).1
      · rcases List.mem_cons.mp listed with rfl | listed
        · exact ⟨Finset.Subset.refl _, .inl rfl⟩
        · refine ⟨strict.subset.trans (above later listed).1, .inr ?_⟩
          rcases (above later listed).2 with rfl | known
          · exact isLoop
          · exact known

section Levels

variable {nest : LoopNest α} (repeatFree : ∀ loop ∈ nest.loops, loop.members.Nodup)
  (ascending : nest.loops.Pairwise fun a b => a.size ≤ b.size)

include repeatFree ascending

/-- In a nest ordered by size, the next loop up is the first of the later loops that encloses. -/
theorem higher?_eq {before rest : List (Loop α)} {loop : Loop α}
    (split : nest.loops = before ++ loop :: rest) :
    nest.higher? loop = rest.find? (·.encloses loop) := by
  rw [split] at repeatFree ascending
  obtain ⟨-, later, earlier⟩ := List.pairwise_append.mp ascending
  have notBefore : before.find? (fun candidate =>
      decide (candidate.size > loop.size) && candidate.encloses loop) = none := by
    rw [List.find?_eq_none]
    intro candidate listed
    have smaller := earlier candidate listed loop List.mem_cons_self
    simp [Nat.not_lt.mpr smaller]
  have largerAfter : ∀ candidate ∈ rest,
      (decide (candidate.size > loop.size) && candidate.encloses loop) = candidate.encloses loop := by
    intro candidate listed
    rw [Bool.and_eq_right_iff_imp, decide_eq_true_eq, ← Loop.statements_ssubset]
    intro strict
    have fewer := Finset.card_lt_card strict
    rwa [Loop.card_statements (repeatFree loop (by simp)),
      Loop.card_statements (repeatFree candidate (by simp [listed]))] at fewer
  rw [higher?, split, List.find?_append, notBefore, Option.none_or, List.find?_cons_of_neg (by simp)]
  exact List.find?_congr largerAfter

/-- The level of a loop is the length of the climb from it. -/
theorem exists_climb (before : List (Loop α)) {loops : List (Loop α)}
    (split : nest.loops = before ++ loops) {loop : Loop α} {level : Nat}
    (leveled : (loop, level) ∈ withLevels loops) :
    ∃ chain, nest.Climb loop chain ∧ chain.length = level := by
  induction loops generalizing before loop level with
  | nil => simp [withLevels] at leveled
  | cons first rest ih =>
      have later {loop : Loop α} {level : Nat} (leveled : (loop, level) ∈ withLevels rest) :
          ∃ chain, nest.Climb loop chain ∧ chain.length = level :=
        ih (before ++ [first]) (by simpa using split) leveled
      rw [withLevels] at leveled
      rcases List.mem_cons.mp leveled with isFirst | isLater
      · obtain ⟨rfl, rfl⟩ := Prod.mk.inj isFirst
        have next : nest.higher? loop =
            ((withLevels rest).find? fun entry => entry.1.encloses loop).map Prod.fst := by
          rw [higher?_eq repeatFree ascending split, ← map_fst_withLevels rest, List.find?_map,
            map_fst_withLevels]
          rfl
        cases found : (withLevels rest).find? fun entry => entry.1.encloses loop with
        | none =>
            rw [found] at next
            exact ⟨[loop], .top next, by simp⟩
        | some entry =>
            rw [found] at next
            obtain ⟨chain, climb, length⟩ := later (List.mem_of_find?_eq_some found)
            exact ⟨loop :: chain, .up next climb, by simp [length]⟩
      · exact later isLater

theorem exists_level {loop : Loop α} (isLoop : loop ∈ nest.loops) :
    ∃ level, (loop, level) ∈ nest.levels ∧ ∃ chain, nest.Climb loop chain ∧ chain.length = level := by
  rw [← map_fst_withLevels nest.loops] at isLoop
  obtain ⟨⟨loop, level⟩, leveled, rfl⟩ := List.mem_map.mp isLoop
  exact ⟨level, leveled, exists_climb repeatFree ascending [] rfl leveled⟩

end Levels

theorem mem_depths {nest : LoopNest α} {statement : α} {depth : Nat} :
    (statement, depth) ∈ nest.depths ↔
      (∃ loop ∈ nest.loops, loop.contains statement = true) ∧ depth = nest.depthOf statement := by
  simp only [depths, depthOf, List.mem_map, List.mem_eraseDups, List.mem_flatMap, Prod.mk.injEq,
    Loop.contains_iff]
  constructor
  · rintro ⟨_, inside, rfl, rfl⟩
    exact ⟨inside, rfl⟩
  · rintro ⟨inside, rfl⟩
    exact ⟨statement, inside, rfl, rfl⟩

theorem map_fst_depths (nest : LoopNest α) :
    nest.depths.map (·.1) = (nest.loops.flatMap (·.members)).eraseDups := by
  simp [depths, Function.comp_def]

theorem mem_map_fst_depths {nest : LoopNest α} {statement : α} :
    statement ∈ nest.depths.map (·.1) ↔ ∃ loop ∈ nest.loops, loop.contains statement = true := by
  simp [map_fst_depths, Loop.contains_iff]

theorem le_deepest {levels : List (Loop α × Nat)} {statement : α} {entry : Loop α × Nat}
    (listed : entry ∈ levels) (around : entry.1.contains statement = true) :
    entry.2 ≤ deepest levels statement := by
  induction levels with
  | nil => simp at listed
  | cons first rest ih =>
      rw [deepest_cons first.1 first.2]
      rcases List.mem_cons.mp listed with rfl | listed
      · simp [around]
      · have bound := ih listed
        split <;> omega

theorem deepest_attained (levels : List (Loop α × Nat)) (statement : α) :
    deepest levels statement = 0 ∨
      ∃ entry ∈ levels, entry.1.contains statement = true ∧ deepest levels statement = entry.2 := by
  induction levels with
  | nil => exact .inl rfl
  | cons first rest ih =>
      rw [deepest_cons first.1 first.2]
      by_cases inFirst : first.1.contains statement = true ∧ deepest rest statement ≤ first.2
      · exact .inr ⟨first, List.mem_cons_self, inFirst.1, by simp [inFirst]⟩
      · have fromRest : (if first.1.contains statement = true
            then max first.2 (deepest rest statement) else deepest rest statement) =
            deepest rest statement := by
          split
          case isTrue contains => exact Nat.max_eq_right (by by_contra; exact inFirst ⟨contains, by omega⟩)
          case isFalse => rfl
        rw [fromRest]
        refine ih.imp_right ?_
        rintro ⟨entry, listed, found⟩
        exact ⟨entry, List.mem_cons_of_mem _ listed, found⟩

/-- The depth of a statement inside a loop is the length of a climb that starts around it. -/
theorem depthOf_eq_climb {nest : LoopNest α} (repeatFree : ∀ loop ∈ nest.loops, loop.members.Nodup)
    (ascending : nest.loops.Pairwise fun a b => a.size ≤ b.size) {statement : α}
    (inside : ∃ loop ∈ nest.loops, loop.contains statement = true) :
    ∃ loop ∈ nest.loops, loop.contains statement = true ∧
      ∃ chain, nest.Climb loop chain ∧ chain.length = nest.depthOf statement := by
  have positive : 0 < nest.depthOf statement := by
    obtain ⟨loop, isLoop, contains⟩ := inside
    obtain ⟨level, leveled, chain, climb, length⟩ := exists_level repeatFree ascending isLoop
    calc 0 < chain.length := List.length_pos_iff.mpr climb.ne_nil
      _ = level := length
      _ ≤ nest.depthOf statement := le_deepest leveled contains
  rcases deepest_attained nest.levels statement with none | ⟨entry, leveled, contains, depth⟩
  · exact absurd none (Nat.ne_of_gt positive)
  · have isLoop : entry.1 ∈ nest.loops :=
      map_fst_withLevels nest.loops ▸ List.mem_map_of_mem leveled
    obtain ⟨chain, climb, length⟩ := exists_climb repeatFree ascending [] rfl leveled
    exact ⟨entry.1, isLoop, contains, chain, climb, length.trans depth.symm⟩

/-- Loops of a list around a statement, each strictly inside the next. -/
structure ChainAround (loops : List (Loop α)) (statement : α) (chain : List (Loop α)) : Prop where
  given : ∀ loop ∈ chain, loop ∈ loops
  around : ∀ loop ∈ chain, statement ∈ loop.statements
  increasing : chain.Pairwise (·.statements ⊂ ·.statements)

theorem Climb.chainAround {loops : List (Loop α)} {loop : Loop α} {chain : List (Loop α)}
    (climb : (ofLoops loops).Climb loop chain) (isLoop : loop ∈ (ofLoops loops).loops)
    {statement : α} (inside : loop.contains statement = true) :
    ChainAround loops statement chain where
  given outer met := by
    rcases (climb.chain.2 outer met).2 with rfl | known
    · exact mem_of_mem_ofLoops isLoop
    · exact mem_of_mem_ofLoops known
  around outer met :=
    (climb.chain.2 outer met).1 (Loop.mem_statements.mpr (Loop.contains_iff.mp inside))
  increasing := climb.chain.1

/-- The sets of statements among those loops that contain a statement. -/
def setsAround (loops : List (Loop α)) (statement : α) : Finset (Finset α) :=
  ((loops.filter (·.contains statement)).map (·.statements)).toFinset

theorem mem_setsAround {loops : List (Loop α)} {statement : α} {set : Finset α} :
    set ∈ setsAround loops statement ↔
      ∃ loop ∈ loops, statement ∈ loop.statements ∧ loop.statements = set := by
  simp [setsAround, Loop.contains_iff, Loop.mem_statements, and_assoc]

section Sets

variable {loops : List (Loop α)} (repeatFree : ∀ loop ∈ loops, loop.members.Nodup)

include repeatFree

theorem setsAround_ofLoops (statement : α) :
    setsAround (ofLoops loops).loops statement = setsAround loops statement := by
  ext set
  rw [mem_setsAround, mem_setsAround]
  constructor
  · rintro ⟨loop, isLoop, found⟩
    exact ⟨loop, mem_of_mem_ofLoops isLoop, found⟩
  · rintro ⟨loop, listed, inside, rfl⟩
    obtain ⟨kept, isLoop, same⟩ := exists_kept repeatFree listed
    exact ⟨kept, isLoop, same ▸ inside, same⟩

theorem inside_ofLoops_iff {statement : α} :
    (∃ loop ∈ (ofLoops loops).loops, loop.contains statement = true) ↔
      ∃ loop ∈ loops, statement ∈ loop.statements := by
  simp only [Loop.contains_iff, ← Loop.mem_statements]
  constructor
  · rintro ⟨loop, isLoop, inside⟩
    exact ⟨loop, mem_of_mem_ofLoops isLoop, inside⟩
  · rintro ⟨loop, listed, inside⟩
    obtain ⟨kept, isLoop, same⟩ := exists_kept repeatFree listed
    exact ⟨kept, isLoop, same ▸ inside⟩

/-- If the loops around a statement all compare, its depth is the number of their sets of
    statements. -/
theorem depthOf_eq_card {statement : α}
    (comparable : ∀ a ∈ loops, ∀ b ∈ loops, statement ∈ a.statements → statement ∈ b.statements →
      a.statements ⊆ b.statements ∨ b.statements ⊆ a.statements) :
    (ofLoops loops).depthOf statement = (setsAround loops statement).card := by
  have apart := pairwise_statements_ne repeatFree
  have ascends : Ascends statement (ofLoops loops).loops := by
    apply ascends_of_sizes (fun loop isLoop => repeatFree loop (mem_of_mem_ofLoops isLoop))
      (sizes_ascend loops)
    · refine apart.imp fun different => ?_
      rwa [← Loop.statements_subset, ← Loop.statements_subset, ← Finset.Subset.antisymm_iff]
    · refine List.pairwise_of_forall_mem_list ?_
      intro a isA b isB
      simp only [← Loop.mem_statements, ← Loop.statements_subset]
      exact comparable a (mem_of_mem_ofLoops isA) b (mem_of_mem_ofLoops isB)
  have once : (((ofLoops loops).loops.filter (·.contains statement)).map
      (·.statements)).Nodup := by
    rw [List.Nodup, List.pairwise_map]
    exact apart.filter _
  calc (ofLoops loops).depthOf statement
      = (ofLoops loops).loops.countP (·.contains statement) := (level_eq_countP ascends).2
    _ = (setsAround (ofLoops loops).loops statement).card := by
        rw [setsAround, List.toFinset_card_of_nodup once, List.length_map, List.countP_eq_length_filter]
    _ = (setsAround loops statement).card := by rw [setsAround_ofLoops repeatFree]

theorem mem_depths_of_perm {statement : α} (inside : ∃ loop ∈ loops, statement ∈ loop.statements)
    (comparable : ∀ a ∈ loops, ∀ b ∈ loops, statement ∈ a.statements → statement ∈ b.statements →
      a.statements ⊆ b.statements ∨ b.statements ⊆ a.statements)
    {order : List (Loop α)} (reordered : order.Perm loops) :
    (statement, (setsAround loops statement).card) ∈ (ofLoops order).depths := by
  have orderFree : ∀ loop ∈ order, loop.members.Nodup :=
    fun loop listed => repeatFree loop (reordered.subset listed)
  have sameSets : setsAround order statement = setsAround loops statement := by
    ext set
    simp only [mem_setsAround, reordered.mem_iff]
  have depth := depthOf_eq_card orderFree fun a isA b isB =>
    comparable a (reordered.subset isA) b (reordered.subset isB)
  refine mem_depths.mpr ⟨?_, sameSets ▸ depth.symm⟩
  rw [inside_ofLoops_iff orderFree]
  simpa only [reordered.mem_iff] using inside

end Sets

/-- Loops may be given in any number and order, with any headers and members. The climb from each loop of
    their nest ends. The statements with a depth are those of some given loop, each listed once. The depth
    of a statement is at least one and is the length of a chain of given loops around it, so it is at
    most that of the longest such chain. If the given loops around the statement all compare, its depth
    is the number of their sets of statements, in whatever order the loops are given. -/
theorem depths_of_given (given : List (α × List α)) :
    let loops := given.map fun entry => Loop.ofMembers entry.1 entry.2
    let nest := ofLoops loops
    (∀ loop ∈ nest.loops, ∃ chain, nest.Climb loop chain) ∧
      (nest.depths.map (·.1)).Nodup ∧
      (∀ statement, statement ∈ nest.depths.map (·.1) ↔
        ∃ entry ∈ given, statement ∈ entry.1 :: entry.2) ∧
      ∀ statement depth, (statement, depth) ∈ nest.depths →
        1 ≤ depth ∧
        (∃ loop ∈ nest.loops, ∃ chain, nest.Climb loop chain ∧ ChainAround loops statement chain ∧
          depth = chain.length) ∧
        ((∀ a ∈ loops, ∀ b ∈ loops, statement ∈ a.statements → statement ∈ b.statements →
            a.statements ⊆ b.statements ∨ b.statements ⊆ a.statements) →
          ∀ order, order.Perm loops →
            (statement, (setsAround loops statement).card) ∈ (ofLoops order).depths) := by
  intro loops nest
  have repeatFree : ∀ loop ∈ loops, loop.members.Nodup := by
    intro loop listed
    obtain ⟨entry, -, rfl⟩ := List.mem_map.mp listed
    exact nodup_eraseDups _
  have keptFree : ∀ loop ∈ nest.loops, loop.members.Nodup :=
    fun loop isLoop => repeatFree loop (mem_of_mem_ofLoops isLoop)
  refine ⟨fun loop isLoop => ?_, ?_, fun statement => ?_, fun statement depth listed => ?_⟩
  · obtain ⟨_, _, chain, climb, _⟩ := exists_level keptFree (sizes_ascend loops) isLoop
    exact ⟨chain, climb⟩
  · rw [map_fst_depths]
    exact nodup_eraseDups _
  · rw [mem_map_fst_depths, inside_ofLoops_iff repeatFree]
    simp [loops, Loop.mem_statements, Loop.ofMembers]
  · obtain ⟨inside, rfl⟩ := mem_depths.mp listed
    obtain ⟨loop, isLoop, around, chain, climb, length⟩ :=
      depthOf_eq_climb keptFree (sizes_ascend loops) inside
    refine ⟨length ▸ List.length_pos_iff.mpr climb.ne_nil,
      ⟨loop, isLoop, chain, climb, climb.chainAround isLoop around, length.symm⟩, ?_⟩
    intro comparable order reordered
    exact mem_depths_of_perm repeatFree ((inside_ofLoops_iff repeatFree).mp inside) comparable reordered

/-- Where loops overlap the order matters: of two larger loops of one size the climb takes the first, and
    here only the one with statement 3 leads further up. -/
example : (ofLoops [Loop.ofMembers 1 [], .ofMembers 1 [2], .ofMembers 1 [3],
        .ofMembers 1 [3, 4]]).depths.lookup 1 = some 2 ∧
      (ofLoops [Loop.ofMembers 1 [], .ofMembers 1 [3], .ofMembers 1 [2],
        .ofMembers 1 [3, 4]]).depths.lookup 1 = some 3 := by
  cbv

end LoopNest

end CallWeight
