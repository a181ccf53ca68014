import CallWeight.CallGraph.Components
import CallWeight.Proofs.GraphIndex

/-! # What the component search knows at every moment

The signatures on the path of the search form its trail. All of them are open, and the numbers on
the stack of open signatures decrease from top to bottom. Three facts about the stack carry the
search: a signature on the trail reaches everything above it, everything open reaches back to the
trail, and the lowest number noted for a signature on the trail bounds whatever the open signatures
that it owns lead to. When the end of the trail has no lower number than its own, nothing open that
it owns leads below it, so what lies above it on the stack is a whole component.
-/

namespace CallWeight.CallGraph.Search

/-- The signatures on the path, its end first. -/
def trail (s : Search) : List Text := s.path.map (·.1)

/-- Whether the search has already followed an edge out of a signature. -/
def Followed (g : CallGraph) (s : Search) (signature : Text) (e : CallEdge) : Prop :=
  e ∈ g.edgesFrom signature ∧ ∀ edges, (signature, edges) ∈ s.path → e ∉ edges

/-- Whether a signature of the trail is the last one that was met no later than another
    signature. -/
def Owns (s : Search) (owner signature : Text) : Prop :=
  s.numberOf owner ≤ s.numberOf signature ∧
    ∀ x ∈ s.trail, s.numberOf x ≤ s.numberOf signature → s.numberOf x ≤ s.numberOf owner

structure Invariant (g : CallGraph) (s : Search) : Prop where
  /-- Every node is unmet, open or closed, and only one of these. -/
  parts : (s.unmet ++ (s.stack ++ s.closed.flatten)).Perm g.nodes.keys
  numbered : ∀ x, (s.number.get? x).isSome ↔ x ∈ s.stack ++ s.closed.flatten
  bounded : ∀ {x n}, s.number.get? x = some n → n < s.number.size
  descending : s.stack.Pairwise fun upper lower => s.numberOf lower < s.numberOf upper
  onStack : s.trail.Sublist s.stack
  rated : ∀ x ∈ s.trail, (s.lowest.get? x).isSome
  pending : ∀ {x edges}, (x, edges) ∈ s.path → edges ⊆ g.edgesFrom x
  met : ∀ x ∈ s.stack, ∀ e, s.Followed g x e → e.target.signature ∉ s.unmet
  /-- The trail reaches everything above it. -/
  reachesUp : ∀ x ∈ s.trail, ∀ y ∈ s.stack, s.numberOf x ≤ s.numberOf y → g.Reaches x y
  /-- Everything open reaches back to the trail. -/
  reachesBack : ∀ y ∈ s.stack, ∃ x ∈ s.trail, s.numberOf x ≤ s.numberOf y ∧ g.Reaches y x
  lowestLe : ∀ x ∈ s.trail, s.lowestOf x ≤ s.numberOf x
  attained : ∀ x ∈ s.trail, ∃ y ∈ s.stack, s.numberOf y = s.lowestOf x ∧ g.Reaches x y
  covers : ∀ x ∈ s.trail, ∀ y ∈ s.stack, s.Owns x y → ∀ e, s.Followed g y e →
    e.target.signature ∈ s.stack → s.lowestOf x ≤ s.numberOf e.target.signature
  sealed : ∀ x ∈ s.closed.flatten, ∀ y, g.Calls x y → y ∈ s.closed.flatten
  connected : ∀ c ∈ s.closed, ∀ x ∈ c, ∀ y ∈ c, g.Reaches x y
  ordered : s.closed.Pairwise fun later earlier => ∀ x ∈ earlier, ∀ y ∈ later, ¬ g.Calls x y
  inhabited : [] ∉ s.closed

theorem numberOf_meet (s : Search) (g : CallGraph) (w x : Text) :
    (s.meet g w).numberOf x = if w = x then s.number.size else s.numberOf x := by
  simp only [numberOf, meet, OrderedMap.get?_insert]
  split <;> rfl

theorem lowestOf_meet (s : Search) (g : CallGraph) (w x : Text) :
    (s.meet g w).lowestOf x = if w = x then s.number.size else s.lowestOf x := by
  simp only [lowestOf, meet, OrderedMap.get?_insert]
  split <;> rfl

theorem lowestOf_reach (s : Search) (v : Text) (n : Nat) (x : Text) :
    (s.reach v n).lowestOf x = if v = x then min (s.lowestOf v) n else s.lowestOf x := by
  simp only [lowestOf, reach, OrderedMap.get?_insert]
  split <;> rfl

/-- Taking a component off the stack takes everything down to its first signature. -/
theorem popTo_eq {v : Text} {stack : List Text} (isOpen : v ∈ stack) :
    ∃ front back, stack = front ++ v :: back ∧ v ∉ front ∧
      popTo v stack = (front ++ [v], back) := by
  induction stack with
  | nil => cases isOpen
  | cons top rest ih =>
      by_cases same : top = v
      · subst same
        exact ⟨[], rest, rfl, by simp, by simp [popTo]⟩
      · have below : v ∈ rest := by simpa [Ne.symm same] using isOpen
        obtain ⟨front, back, rfl, absent, popped⟩ := ih below
        exact ⟨top :: front, back, rfl, by simp [absent, Ne.symm same], by simp [popTo, same, popped]⟩

namespace Invariant

variable {g : CallGraph} {s : Search}

section Facts

variable (inv : s.Invariant g)

include inv

theorem isOpen {x : Text} (onTrail : x ∈ s.trail) : x ∈ s.stack := inv.onStack.subset onTrail

theorem distinct (indexed : g.Indexed) :
    (s.unmet ++ (s.stack ++ s.closed.flatten)).Nodup :=
  inv.parts.nodup_iff.mpr indexed.distinctNodes

theorem mem_nodes_iff {x : Text} :
    x ∈ g.nodes.keys ↔ x ∈ s.unmet ∨ x ∈ s.stack ∨ x ∈ s.closed.flatten := by
  rw [← inv.parts.mem_iff]
  simp only [List.mem_append]

theorem not_unmet_of_open (indexed : g.Indexed) {x : Text} (isOpen : x ∈ s.stack) : x ∉ s.unmet := by
  intro isUnmet
  exact (List.nodup_append.mp (inv.distinct indexed)).2.2 x isUnmet x
    (List.mem_append_left _ isOpen) rfl

theorem not_open_of_closed (indexed : g.Indexed) {x : Text} (isClosed : x ∈ s.closed.flatten) :
    x ∉ s.stack := by
  intro isOpen
  have met := (List.nodup_append.mp (inv.distinct indexed)).2.1
  exact (List.nodup_append.mp met).2.2 x isOpen x isClosed rfl

theorem unnumbered (indexed : g.Indexed) {x : Text} (isUnmet : x ∈ s.unmet) :
    s.number.get? x = none := by
  have apart := (List.nodup_append.mp (inv.distinct indexed)).2.2 x isUnmet
  rw [← Option.not_isSome_iff_eq_none, inv.numbered]
  exact fun met => apart x met rfl

theorem numberOf_lt {x : Text} (isOpen : x ∈ s.stack) : s.numberOf x < s.number.size := by
  have isNumbered := (inv.numbered x).mpr (List.mem_append_left _ isOpen)
  obtain ⟨n, found⟩ := Option.isSome_iff_exists.mp isNumbered
  simpa [numberOf, found] using inv.bounded found

/-- Open signatures are told apart by their numbers. -/
theorem eq_of_numberOf_eq {x y : Text} (xOpen : x ∈ s.stack) (yOpen : y ∈ s.stack)
    (same : s.numberOf x = s.numberOf y) : x = y := by
  have distinctNumbers : (s.stack.map s.numberOf).Nodup :=
    List.pairwise_map.mpr (inv.descending.imp fun below => Nat.ne_of_gt below)
  exact List.inj_on_of_nodup_map distinctNumbers xOpen yOpen same

/-- The end of the trail was met last. -/
theorem below_end {v : Text} {edges : List CallEdge} {rest : List (Text × List CallEdge)}
    (atEnd : s.path = (v, edges) :: rest) {x : Text} (before : x ∈ rest.map (·.1)) :
    s.numberOf x < s.numberOf v := by
  have trailDescends := inv.descending.sublist inv.onStack
  simp only [trail, atEnd, List.map_cons, List.pairwise_cons] at trailDescends
  exact trailDescends.1 x before

theorem le_end {v : Text} {edges : List CallEdge} {rest : List (Text × List CallEdge)}
    (atEnd : s.path = (v, edges) :: rest) {x : Text} (onTrail : x ∈ s.trail) :
    s.numberOf x ≤ s.numberOf v := by
  rw [trail, atEnd, List.map_cons] at onTrail
  rcases List.mem_cons.mp onTrail with rfl | before
  · exact Nat.le_refl _
  · exact Nat.le_of_lt (inv.below_end atEnd before)

/-- The whole trail reaches its end. -/
theorem reaches_end {v : Text} {edges : List CallEdge} {rest : List (Text × List CallEdge)}
    (atEnd : s.path = (v, edges) :: rest) {x : Text} (onTrail : x ∈ s.trail) : g.Reaches x v :=
  inv.reachesUp x onTrail v (inv.isOpen (by simp [trail, atEnd])) (inv.le_end atEnd onTrail)

end Facts

/-- Before the search nothing is met. -/
theorem start (g : CallGraph) : ({ unmet := g.nodes.keys } : Search).Invariant g where
  parts := by simp
  numbered := by simp
  bounded found := by simp at found
  descending := .nil
  onStack := .slnil
  rated := by simp [trail]
  pending onPath := by cases onPath
  met := by simp
  reachesUp := by simp [trail]
  reachesBack := by simp
  lowestLe := by simp [trail]
  attained := by simp [trail]
  covers := by simp [trail]
  sealed := by simp
  connected := by simp
  ordered := .nil
  inhabited := List.not_mem_nil

/-- Meeting a signature leaves no edge of it followed and changes nothing for the others. -/
theorem followed_of_meet {w y : Text} {e : CallEdge} (followed : (s.meet g w).Followed g y e) :
    y ≠ w ∧ s.Followed g y e := by
  obtain ⟨leaves, notPending⟩ := followed
  refine ⟨?_, leaves, fun edges onPath => notPending edges (List.mem_cons_of_mem _ onPath)⟩
  rintro rfl
  exact notPending (g.edgesFrom y) List.mem_cons_self leaves

section Meeting

variable (inv : s.Invariant g) (indexed : g.Indexed) {w : Text} (isUnmet : w ∈ s.unmet)

include inv indexed isUnmet

theorem ne_of_open {x : Text} (isOpen : x ∈ s.stack) : w ≠ x := fun same =>
  inv.not_unmet_of_open indexed isOpen (same ▸ isUnmet)

theorem numberOf_meet_of_open {x : Text} (isOpen : x ∈ s.stack) :
    (s.meet g w).numberOf x = s.numberOf x := by
  rw [numberOf_meet, if_neg (inv.ne_of_open indexed isUnmet isOpen)]

theorem lowestOf_meet_of_trail {x : Text} (onTrail : x ∈ s.trail) :
    (s.meet g w).lowestOf x = s.lowestOf x := by
  rw [lowestOf_meet, if_neg (inv.ne_of_open indexed isUnmet (inv.isOpen onTrail))]

/-- The new signature has the greatest number. -/
theorem numberOf_meet_lt {x : Text} (isOpen : x ∈ s.stack) :
    (s.meet g w).numberOf x < (s.meet g w).numberOf w := by
  rw [inv.numberOf_meet_of_open indexed isUnmet isOpen, numberOf_meet, if_pos rfl]
  exact inv.numberOf_lt isOpen

theorem bounded_meet {x : Text} {n : Nat} (found : (s.meet g w).number.get? x = some n) :
    n < (s.meet g w).number.size := by
  have grown : (s.meet g w).number.size = s.number.size + 1 :=
    OrderedMap.size_insert_of_new (inv.unnumbered indexed isUnmet) _
  simp only [Search.meet, OrderedMap.get?_insert] at found
  rw [grown]
  split at found
  · simp only [Option.some.injEq] at found
    omega
  · exact Nat.lt_succ_of_lt (inv.bounded found)

theorem descending_meet : (s.meet g w).stack.Pairwise fun upper lower =>
    (s.meet g w).numberOf lower < (s.meet g w).numberOf upper := by
  refine List.pairwise_cons.mpr ⟨fun x xOpen => inv.numberOf_meet_lt indexed isUnmet xOpen, ?_⟩
  refine inv.descending.imp_of_mem fun {x y} xOpen yOpen below => ?_
  rwa [inv.numberOf_meet_of_open indexed isUnmet xOpen,
    inv.numberOf_meet_of_open indexed isUnmet yOpen]

theorem reachesUp_meet (reached : ∀ x ∈ s.trail, g.Reaches x w) {x y : Text}
    (onTrail : x ∈ (s.meet g w).trail) (yOpen : y ∈ (s.meet g w).stack)
    (below : (s.meet g w).numberOf x ≤ (s.meet g w).numberOf y) : g.Reaches x y := by
  rcases List.mem_cons.mp yOpen with rfl | yOld
  · rcases List.mem_cons.mp onTrail with rfl | xOld
    · exact .refl
    · exact reached x xOld
  · rcases List.mem_cons.mp onTrail with rfl | xOld
    · exact absurd (inv.numberOf_meet_lt indexed isUnmet yOld) (Nat.not_lt.mpr below)
    · rw [inv.numberOf_meet_of_open indexed isUnmet (inv.isOpen xOld),
        inv.numberOf_meet_of_open indexed isUnmet yOld] at below
      exact inv.reachesUp x xOld y yOld below

theorem owns_of_meet {x y : Text} (onTrail : x ∈ s.trail) (yOpen : y ∈ s.stack)
    (owns : (s.meet g w).Owns x y) : s.Owns x y := by
  have kept {z : Text} := inv.numberOf_meet_of_open indexed isUnmet (x := z)
  refine ⟨?_, fun z zTrail zBelow => ?_⟩
  · simpa only [kept (inv.isOpen onTrail), kept yOpen] using owns.1
  · have zOwned := owns.2 z (List.mem_cons_of_mem _ zTrail)
    rw [kept (inv.isOpen zTrail), kept yOpen, kept (inv.isOpen onTrail)] at zOwned
    exact zOwned zBelow

theorem covers_meet {x y : Text} (onTrail : x ∈ (s.meet g w).trail)
    (yOpen : y ∈ (s.meet g w).stack) (owns : (s.meet g w).Owns x y) {e : CallEdge}
    (followed : (s.meet g w).Followed g y e)
    (targetOpen : e.target.signature ∈ (s.meet g w).stack) :
    (s.meet g w).lowestOf x ≤ (s.meet g w).numberOf e.target.signature := by
  obtain ⟨different, before⟩ := followed_of_meet followed
  have yOld : y ∈ s.stack := (List.mem_cons.mp yOpen).resolve_left different
  -- The new signature owns nothing older, so the owner was on the trail before.
  rcases List.mem_cons.mp onTrail with rfl | xOld
  · exact absurd (inv.numberOf_meet_lt indexed isUnmet yOld) (Nat.not_lt.mpr owns.1)
  · have targetOld : e.target.signature ∈ s.stack := by
      rcases List.mem_cons.mp targetOpen with same | targetOld
      · exact absurd isUnmet (same ▸ inv.met y yOld e before)
      · exact targetOld
    rw [inv.lowestOf_meet_of_trail indexed isUnmet xOld,
      inv.numberOf_meet_of_open indexed isUnmet targetOld]
    exact inv.covers x xOld y yOld (inv.owns_of_meet indexed isUnmet xOld yOld owns) e before
      targetOld

/-- A signature that the whole trail reaches may be met. -/
theorem meet (reached : ∀ x ∈ s.trail, g.Reaches x w) : (s.meet g w).Invariant g := by
  have numberKept {x : Text} := inv.numberOf_meet_of_open indexed isUnmet (x := x)
  have lowestKept {x : Text} := inv.lowestOf_meet_of_trail indexed isUnmet (x := x)
  have rated : (s.meet g w).lowestOf w = (s.meet g w).numberOf w := by
    rw [lowestOf_meet, numberOf_meet, if_pos rfl, if_pos rfl]
  refine
    { parts := ?_
      numbered := ?_
      bounded := inv.bounded_meet indexed isUnmet
      descending := inv.descending_meet indexed isUnmet
      onStack := inv.onStack.cons_cons w
      rated := ?_
      pending := ?_
      met := ?_
      reachesUp := fun _ onTrail _ yOpen =>
        inv.reachesUp_meet indexed isUnmet reached onTrail yOpen
      reachesBack := ?_
      lowestLe := ?_
      attained := ?_
      covers := fun _ onTrail _ yOpen owns _ =>
        inv.covers_meet indexed isUnmet onTrail yOpen owns
      sealed := inv.sealed
      connected := inv.connected
      ordered := inv.ordered
      inhabited := inv.inhabited }
  · have moved : (s.unmet.erase w ++ w :: (s.stack ++ s.closed.flatten)).Perm
        (s.unmet ++ (s.stack ++ s.closed.flatten)) :=
      List.perm_middle.trans ((List.perm_cons_erase isUnmet).symm.append_right _)
    exact moved.trans inv.parts
  · intro x
    simp only [Search.meet, OrderedMap.get?_insert, List.cons_append, List.mem_cons]
    by_cases same : w = x
    · simp [same]
    · simp [same, Ne.symm same, inv.numbered]
  · intro x onTrail
    simp only [Search.meet, OrderedMap.get?_insert]
    split
    · rfl
    · rename_i different
      exact inv.rated x ((List.mem_cons.mp onTrail).resolve_left (Ne.symm different))
  · intro x edges onPath
    rcases List.mem_cons.mp onPath with first | onPath
    · obtain ⟨rfl, rfl⟩ := Prod.mk.inj first
      exact List.Subset.refl _
    · exact inv.pending onPath
  · intro x xOpen e followed stillUnmet
    obtain ⟨different, before⟩ := followed_of_meet followed
    have xOpen : x ∈ s.stack := (List.mem_cons.mp xOpen).resolve_left different
    exact inv.met x xOpen e before (List.mem_of_mem_erase stillUnmet)
  · intro y yOpen
    rcases List.mem_cons.mp yOpen with rfl | yOpen
    · exact ⟨y, List.mem_cons_self, Nat.le_refl _, .refl⟩
    · obtain ⟨x, onTrail, below, back⟩ := inv.reachesBack y yOpen
      refine ⟨x, List.mem_cons_of_mem _ onTrail, ?_, back⟩
      rwa [numberKept (inv.isOpen onTrail), numberKept yOpen]
  · intro x onTrail
    rcases List.mem_cons.mp onTrail with rfl | onTrail
    · exact Nat.le_of_eq rated
    · rw [lowestKept onTrail, numberKept (inv.isOpen onTrail)]
      exact inv.lowestLe x onTrail
  · intro x onTrail
    rcases List.mem_cons.mp onTrail with rfl | onTrail
    · exact ⟨x, List.mem_cons_self, rated.symm, .refl⟩
    · obtain ⟨y, yOpen, isLowest, reaches⟩ := inv.attained x onTrail
      refine ⟨y, List.mem_cons_of_mem _ yOpen, ?_, reaches⟩
      rwa [numberKept yOpen, lowestKept onTrail]

end Meeting

/-- An edge can be taken off the path once its target is met and its number is noted. -/
theorem dropEdge (inv : s.Invariant g) (front : List (Text × List CallEdge))
    {back : List (Text × List CallEdge)} {v : Text} {e : CallEdge} {edges : List CallEdge}
    (onPath : s.path = front ++ (v, e :: edges) :: back)
    (targetMet : e.target.signature ∉ s.unmet)
    (noted : e.target.signature ∈ s.stack → s.lowestOf v ≤ s.numberOf e.target.signature) :
    ({ s with path := front ++ (v, edges) :: back } : Search).Invariant g := by
  have sameTrail : ({ s with path := front ++ (v, edges) :: back } : Search).trail = s.trail := by
    simp [trail, onPath]
  have vTrail : v ∈ s.trail := by simp [trail, onPath]
  have followedBefore : ∀ {y f},
      ({ s with path := front ++ (v, edges) :: back } : Search).Followed g y f →
        s.Followed g y f ∨ (y = v ∧ f = e) := by
    rintro y f ⟨leaves, notPending⟩
    by_cases isDropped : y = v ∧ f = e
    · exact .inr isDropped
    · refine .inl ⟨leaves, fun others isFrame => ?_⟩
      rw [onPath] at isFrame
      rcases List.mem_append.mp isFrame with inFront | atOrBehind
      · exact notPending others (List.mem_append_left _ inFront)
      rcases List.mem_cons.mp atOrBehind with same | inBack
      · obtain ⟨rfl, rfl⟩ := Prod.mk.inj same
        have notLeft := notPending edges (List.mem_append_right _ List.mem_cons_self)
        exact List.not_mem_cons_of_ne_of_not_mem (fun same => isDropped ⟨rfl, same⟩) notLeft
      · exact notPending others (List.mem_append_right _ (List.mem_cons_of_mem _ inBack))
  exact
    { inv with
      onStack := sameTrail ▸ inv.onStack
      rated := sameTrail ▸ inv.rated
      pending := by
        intro x others isFrame
        rcases List.mem_append.mp isFrame with inFront | atOrBehind
        · exact inv.pending (onPath ▸ List.mem_append_left _ inFront)
        rcases List.mem_cons.mp atOrBehind with same | inBack
        · obtain ⟨rfl, rfl⟩ := Prod.mk.inj same
          have before := inv.pending (onPath ▸ List.mem_append_right front List.mem_cons_self)
          exact List.Subset.trans (List.subset_cons_self e others) before
        · exact inv.pending (onPath ▸ List.mem_append_right _ (List.mem_cons_of_mem _ inBack))
      met := by
        intro x xOpen f followed
        rcases followedBefore followed with before | ⟨-, rfl⟩
        · exact inv.met x xOpen f before
        · exact targetMet
      reachesUp := sameTrail ▸ inv.reachesUp
      reachesBack := sameTrail ▸ inv.reachesBack
      lowestLe := sameTrail ▸ inv.lowestLe
      attained := sameTrail ▸ inv.attained
      covers := by
        intro x onTrail y yOpen owns f followed targetOpen
        rw [sameTrail] at onTrail
        rcases followedBefore followed with before | ⟨rfl, rfl⟩
        · have ownsBefore : s.Owns x y := ⟨owns.1, fun z zTrail => owns.2 z (sameTrail ▸ zTrail)⟩
          exact inv.covers x onTrail y yOpen ownsBefore f before targetOpen
        · -- A signature of the trail owns itself only.
          have same := Nat.le_antisymm owns.1 (owns.2 y (sameTrail ▸ vTrail) (Nat.le_refl _))
          rw [inv.eq_of_numberOf_eq (inv.isOpen onTrail) yOpen same]
          exact noted targetOpen }

/-- A signature may note the number of an open signature that it reaches. -/
theorem reach (inv : s.Invariant g) {v y : Text} (yOpen : y ∈ s.stack)
    (reaches : g.Reaches v y) : (s.reach v (s.numberOf y)).Invariant g := by
  have lowered : ∀ x, (s.reach v (s.numberOf y)).lowestOf x ≤ s.lowestOf x := by
    intro x
    rw [lowestOf_reach]
    split
    · rename_i same
      exact same ▸ Nat.min_le_left _ _
    · exact Nat.le_refl _
  exact
    { inv with
      rated := by
        intro x xTrail
        simp only [Search.reach, OrderedMap.get?_insert]
        split
        · rfl
        · exact inv.rated x xTrail
      lowestLe := fun x xTrail => Nat.le_trans (lowered x) (inv.lowestLe x xTrail)
      attained := by
        intro x xTrail
        rw [lowestOf_reach]
        split
        · rename_i same
          subst same
          rcases Nat.le_total (s.lowestOf v) (s.numberOf y) with old | new
          · rw [Nat.min_eq_left old]
            exact inv.attained v xTrail
          · rw [Nat.min_eq_right new]
            exact ⟨y, yOpen, rfl, reaches⟩
        · exact inv.attained x xTrail
      covers := fun x xTrail z zOpen owns e followed targetOpen =>
        Nat.le_trans (lowered x) (inv.covers x xTrail z zOpen owns e followed targetOpen) }

/-- A signature whose edges are all followed can leave the path without changing what is
    followed. -/
theorem followed_of_leave {v y : Text} {rest : List (Text × List CallEdge)} {e : CallEdge}
    (atEnd : s.path = (v, []) :: rest)
    (followed : ({ s with path := rest } : Search).Followed g y e) : s.Followed g y e := by
  refine ⟨followed.1, fun edges onPath => ?_⟩
  rw [atEnd] at onPath
  rcases List.mem_cons.mp onPath with first | behind
  · obtain ⟨rfl, rfl⟩ := Prod.mk.inj first
    exact List.not_mem_nil
  · exact followed.2 edges behind

section Leaving

variable (inv : s.Invariant g) {v caller : Text} {edges : List CallEdge}
  {rest : List (Text × List CallEdge)} (atEnd : s.path = (v, []) :: (caller, edges) :: rest)

include atEnd

theorem trail_of_leave : s.trail = v :: caller :: rest.map (·.1) := by simp [trail, atEnd]

theorem mem_trail_of_leave {x : Text} (onTrail : x ∈ caller :: rest.map (·.1)) : x ∈ s.trail := by
  rw [trail_of_leave atEnd]
  exact List.mem_cons_of_mem _ onTrail

include inv

/-- What came back to the leaving signature goes on to the lower number that it reaches. -/
theorem reachesBack_leave (lower : s.lowestOf v ≠ s.numberOf v) {y : Text} (yOpen : y ∈ s.stack) :
    ∃ x ∈ caller :: rest.map (·.1), s.numberOf x ≤ s.numberOf y ∧ g.Reaches y x := by
  have trailEq := trail_of_leave atEnd
  have vTrail : v ∈ s.trail := by simp [trailEq]
  obtain ⟨x, xTrail, below, back⟩ := inv.reachesBack y yOpen
  rw [trailEq] at xTrail
  rcases List.mem_cons.mp xTrail with rfl | xTrail
  · obtain ⟨z, zOpen, isLowest, further⟩ := inv.attained x vTrail
    have zLower : s.numberOf z < s.numberOf x := by
      have := inv.lowestLe x vTrail
      omega
    obtain ⟨w, wTrail, wBelow, wBack⟩ := inv.reachesBack z zOpen
    have wRest : w ∈ caller :: rest.map (·.1) := by
      rw [trailEq] at wTrail
      refine (List.mem_cons.mp wTrail).resolve_left ?_
      rintro rfl
      omega
    refine ⟨w, wRest, ?_, (back.trans further).trans wBack⟩
    exact Nat.le_trans (Nat.le_of_lt (Nat.lt_of_le_of_lt wBelow zLower)) below
  · exact ⟨x, xTrail, below, back⟩

/-- What the leaving signature owned is owned by its caller. -/
theorem eq_caller_of_owns {x y : Text} (onTrail : x ∈ caller :: rest.map (·.1))
    (owns : ({ s with path := (caller, edges) :: rest } : Search).Owns x y)
    (above : s.numberOf v ≤ s.numberOf y) : x = caller := by
  have trailDescends := inv.descending.sublist inv.onStack
  rw [trail_of_leave atEnd] at trailDescends
  have callerBelow : s.numberOf caller ≤ s.numberOf y :=
    Nat.le_trans (Nat.le_of_lt (inv.below_end atEnd (by simp))) above
  have notAbove := owns.2 caller (by simp [trail]) callerBelow
  rcases List.mem_cons.mp onTrail with same | behind
  · exact same
  · have lower := (List.pairwise_cons.mp (List.pairwise_cons.mp trailDescends).2).1 x behind
    exact absurd lower (Nat.not_lt.mpr notAbove)

theorem covers_leave (informed : s.lowestOf caller ≤ s.lowestOf v) {x y : Text}
    (onTrail : x ∈ caller :: rest.map (·.1)) (yOpen : y ∈ s.stack)
    (owns : ({ s with path := (caller, edges) :: rest } : Search).Owns x y) {e : CallEdge}
    (followed : s.Followed g y e) (targetOpen : e.target.signature ∈ s.stack) :
    s.lowestOf x ≤ s.numberOf e.target.signature := by
  have trailEq := trail_of_leave atEnd
  by_cases above : s.numberOf v ≤ s.numberOf y
  · have ownedBefore : s.Owns v y := ⟨above, fun z zTrail _ => inv.le_end atEnd zTrail⟩
    cases inv.eq_caller_of_owns atEnd onTrail owns above
    exact Nat.le_trans informed
      (inv.covers v (by simp [trailEq]) y yOpen ownedBefore e followed targetOpen)
  · have ownedBefore : s.Owns x y := by
      refine ⟨owns.1, fun z zTrail zBelow => ?_⟩
      rw [trailEq] at zTrail
      rcases List.mem_cons.mp zTrail with rfl | behind
      · exact absurd zBelow above
      · exact owns.2 z behind zBelow
    exact inv.covers x (mem_trail_of_leave atEnd onTrail) y yOpen ownedBefore e followed targetOpen

/-- A signature that reaches a lower number leaves the path and stays open. Its caller answers for
    what it owned. -/
theorem leave (informed : s.lowestOf caller ≤ s.lowestOf v) (lower : s.lowestOf v ≠ s.numberOf v) :
    ({ s with path := (caller, edges) :: rest } : Search).Invariant g :=
  have onTrail {x : Text} := mem_trail_of_leave atEnd (x := x)
  { inv with
    onStack := (List.sublist_cons_self v _).trans (trail_of_leave atEnd ▸ inv.onStack)
    rated := fun x xTrail => inv.rated x (onTrail xTrail)
    pending := fun isFrame => inv.pending (atEnd ▸ List.mem_cons_of_mem _ isFrame)
    met := fun x xOpen e followed => inv.met x xOpen e (followed_of_leave atEnd followed)
    reachesUp := fun x xTrail => inv.reachesUp x (onTrail xTrail)
    reachesBack := fun _ yOpen => inv.reachesBack_leave atEnd lower yOpen
    lowestLe := fun x xTrail => inv.lowestLe x (onTrail xTrail)
    attained := fun x xTrail => inv.attained x (onTrail xTrail)
    covers := fun _ xTrail _ yOpen owns _ followed =>
      inv.covers_leave atEnd informed xTrail yOpen owns (followed_of_leave atEnd followed) }

end Leaving

theorem sublist_of_cons_sublist {v : Text} {front back items : List Text} (absent : v ∉ front)
    (within : (v :: items).Sublist (front ++ v :: back)) : items.Sublist back := by
  induction front with
  | nil => exact List.cons_sublist_cons.mp within
  | cons top rest ih =>
      have notTop : v ≠ top := fun same => absent (same ▸ List.mem_cons_self)
      have notRest : v ∉ rest := fun inRest => absent (List.mem_cons_of_mem _ inRest)
      cases within with
      | cons _ within => exact ih notRest within
      | cons_cons => exact absurd rfl notTop

section Closing

variable {v : Text} {rest : List (Text × List CallEdge)} {front back : List Text}
  (stackEq : s.stack = front ++ v :: back)

include stackEq

theorem mem_component_or_back {y : Text} (yOpen : y ∈ s.stack) : y ∈ front ++ [v] ∨ y ∈ back := by
  rw [stackEq] at yOpen
  simpa [or_assoc] using yOpen

theorem open_of_component {y : Text} (inside : y ∈ front ++ [v]) : y ∈ s.stack := by
  rw [stackEq]
  rcases List.mem_append.mp inside with inFront | isEnd
  · exact List.mem_append_left _ inFront
  · exact List.mem_append_right _ (List.mem_singleton.mp isEnd ▸ List.mem_cons_self)

variable (inv : s.Invariant g) (atEnd : s.path = (v, []) :: rest)

include inv

theorem below_of_mem_back {y : Text} (inBack : y ∈ back) : s.numberOf y < s.numberOf v := by
  have descending := inv.descending
  rw [stackEq] at descending
  exact (List.pairwise_cons.mp (List.pairwise_append.mp descending).2.1).1 y inBack

theorem above_of_mem_component {y : Text} (inside : y ∈ front ++ [v]) :
    s.numberOf v ≤ s.numberOf y := by
  have descending := inv.descending
  rw [stackEq] at descending
  rcases List.mem_append.mp inside with inFront | isEnd
  · exact Nat.le_of_lt ((List.pairwise_append.mp descending).2.2 y inFront v List.mem_cons_self)
  · exact Nat.le_of_eq (by rw [List.mem_singleton.mp isEnd])

include atEnd

/-- What lies above the end of the trail is strongly connected. -/
theorem component_connected {x y : Text} (xIn : x ∈ front ++ [v]) (yIn : y ∈ front ++ [v]) :
    g.Reaches x y := by
  have vTrail : v ∈ s.trail := by simp [trail, atEnd]
  have fromEnd := inv.reachesUp v vTrail y (open_of_component stackEq yIn)
    (above_of_mem_component stackEq inv yIn)
  obtain ⟨z, zTrail, -, back⟩ := inv.reachesBack x (open_of_component stackEq xIn)
  exact (back.trans (inv.reaches_end atEnd zTrail)).trans fromEnd

/-- If the end of the trail reaches no lower number, nothing leads out of what lies above it except
    into closed components. -/
theorem component_sealed (indexed : g.Indexed) (root : s.lowestOf v = s.numberOf v) {x y : Text}
    (inside : x ∈ front ++ [v]) (calls : g.Calls x y) :
    y ∈ front ++ [v] ∨ y ∈ s.closed.flatten := by
  have vTrail : v ∈ s.trail := by simp [trail, atEnd]
  have xOpen := open_of_component stackEq inside
  have above := above_of_mem_component stackEq inv inside
  obtain ⟨e, leaves, rfl⟩ := indexed.calls_iff.mp calls
  have followed : s.Followed g x e := by
    refine ⟨leaves, fun edges onPath => ?_⟩
    rw [atEnd] at onPath
    rcases List.mem_cons.mp onPath with first | behind
    · obtain ⟨-, rfl⟩ := Prod.mk.inj first
      exact List.not_mem_nil
    · have below := inv.below_end atEnd (List.mem_map_of_mem behind)
      exact absurd below (Nat.not_lt.mpr above)
  have owns : s.Owns v x := ⟨above, fun z zTrail _ => inv.le_end atEnd zTrail⟩
  rcases inv.mem_nodes_iff.mp (indexed.target_mem_nodes leaves) with isUnmet | isOpen | isClosed
  · exact absurd isUnmet (inv.met x xOpen e followed)
  · rcases mem_component_or_back stackEq isOpen with inComponent | inBack
    · exact .inl inComponent
    · have notBelow := inv.covers v vTrail x xOpen owns e followed isOpen
      have below := below_of_mem_back stackEq inv inBack
      omega
  · exact .inr isClosed

/-- A signature that reaches no lower number than its own closes its component. -/
theorem closeComponent (indexed : g.Indexed) (absent : v ∉ front)
    (root : s.lowestOf v = s.numberOf v) :
    ({ s with
      path := rest
      stack := back
      closed := (front ++ [v]) :: s.closed } : Search).Invariant g := by
  have trailEq : s.trail = v :: rest.map (·.1) := by simp [trail, atEnd]
  have onTrail : ∀ {x}, x ∈ rest.map (·.1) → x ∈ s.trail := by
    intro x xTrail
    rw [trailEq]
    exact List.mem_cons_of_mem _ xTrail
  have isOpen : ∀ {x}, x ∈ back → x ∈ s.stack := by
    intro x inBack
    rw [stackEq]
    exact List.mem_append_right _ (List.mem_cons_of_mem _ inBack)
  have sameMet : (back ++ ((front ++ [v]) ++ s.closed.flatten)).Perm
      (s.stack ++ s.closed.flatten) := by
    rw [stackEq]
    refine (List.perm_append_comm_assoc _ _ _).trans (List.Perm.of_eq ?_)
    simp
  refine
    { inv with
      parts := (sameMet.append_left s.unmet).trans inv.parts
      numbered := fun x => (inv.numbered x).trans sameMet.mem_iff.symm
      descending := ?_
      onStack := sublist_of_cons_sublist absent (trailEq ▸ stackEq ▸ inv.onStack)
      rated := fun x xTrail => inv.rated x (onTrail xTrail)
      pending := fun isFrame => inv.pending (atEnd ▸ List.mem_cons_of_mem _ isFrame)
      met := fun x xOpen e followed =>
        inv.met x (isOpen xOpen) e (followed_of_leave atEnd followed)
      reachesUp := fun x xTrail y yOpen => inv.reachesUp x (onTrail xTrail) y (isOpen yOpen)
      reachesBack := ?_
      lowestLe := fun x xTrail => inv.lowestLe x (onTrail xTrail)
      attained := ?_
      covers := ?_
      sealed := ?_
      connected := ?_
      ordered := ?_
      inhabited := ?_ }
  · have descending := inv.descending
    rw [stackEq] at descending
    exact (List.pairwise_cons.mp (List.pairwise_append.mp descending).2.1).2
  · intro y yOpen
    obtain ⟨x, xTrail, below, reaches⟩ := inv.reachesBack y (isOpen yOpen)
    refine ⟨x, ?_, below, reaches⟩
    rw [trailEq] at xTrail
    refine (List.mem_cons.mp xTrail).resolve_left ?_
    rintro rfl
    exact absurd (below_of_mem_back stackEq inv yOpen) (Nat.not_lt.mpr below)
  · intro x xTrail
    obtain ⟨y, yOpen, isLowest, reaches⟩ := inv.attained x (onTrail xTrail)
    refine ⟨y, (mem_component_or_back stackEq yOpen).resolve_left ?_, isLowest, reaches⟩
    intro inside
    have above := above_of_mem_component stackEq inv inside
    have lowestLe := inv.lowestLe x (onTrail xTrail)
    have below := inv.below_end atEnd xTrail
    omega
  · intro x xTrail y yOpen owns e followed targetOpen
    refine inv.covers x (onTrail xTrail) y (isOpen yOpen) ⟨owns.1, fun z zTrail zBelow => ?_⟩ e
      (followed_of_leave atEnd followed) (isOpen targetOpen)
    rw [trailEq] at zTrail
    rcases List.mem_cons.mp zTrail with rfl | behind
    · exact absurd (below_of_mem_back stackEq inv yOpen) (Nat.not_lt.mpr zBelow)
    · exact owns.2 z behind zBelow
  · intro x isClosed y calls
    rw [List.flatten_cons] at isClosed ⊢
    rcases List.mem_append.mp isClosed with inside | isClosed
    · exact List.mem_append.mpr (component_sealed stackEq inv atEnd indexed root inside calls)
    · exact List.mem_append_right _ (inv.sealed x isClosed y calls)
  · intro c isComponent x xIn y yIn
    rcases List.mem_cons.mp isComponent with rfl | isOld
    · exact component_connected stackEq inv atEnd xIn yIn
    · exact inv.connected c isOld x xIn y yIn
  · refine List.pairwise_cons.mpr ⟨?_, inv.ordered⟩
    intro earlier isOld x xIn y yIn calls
    have yClosed := inv.sealed x (List.mem_flatten_of_mem isOld xIn) y calls
    exact inv.not_open_of_closed indexed yClosed (open_of_component stackEq yIn)
  · simp [inv.inhabited]

end Closing

/-- Closing the end of the trail, which leaves the path, keeps the invariant if its caller answers for
    it when it stays open. -/
theorem close (inv : s.Invariant g) (indexed : g.Indexed) {v : Text}
    {rest : List (Text × List CallEdge)} (atEnd : s.path = (v, []) :: rest)
    (answered : s.lowestOf v ≠ s.numberOf v → ∃ caller edges others,
      rest = (caller, edges) :: others ∧ s.lowestOf caller ≤ s.lowestOf v) :
    (({ s with path := rest } : Search).close v).Invariant g := by
  by_cases root : s.lowestOf v = s.numberOf v
  · have vOpen : v ∈ s.stack := inv.isOpen (by simp [trail, atEnd])
    obtain ⟨front, back, stackEq, absent, popped⟩ := popTo_eq vOpen
    have closes : ({ s with path := rest } : Search).close v =
        { s with path := rest, stack := back, closed := (front ++ [v]) :: s.closed } := by
      unfold Search.close
      exact (if_pos root).trans (by simp only [popped])
    rw [closes]
    exact closeComponent stackEq inv atEnd indexed absent root
  · have stays : ({ s with path := rest } : Search).close v = { s with path := rest } := by
      unfold Search.close
      exact if_neg root
    obtain ⟨caller, edges, others, rfl, informed⟩ := answered root
    rw [stays]
    exact inv.leave atEnd informed root

/-- A signature whose edges are all followed informs its caller and closes if it can. -/
theorem finish (inv : s.Invariant g) (indexed : g.Indexed) {v : Text}
    {rest : List (Text × List CallEdge)} (atEnd : s.path = (v, []) :: rest) :
    ((({ s with path := rest } : Search).inform v).close v).Invariant g := by
  have vTrail : v ∈ s.trail := by simp [trail, atEnd]
  obtain ⟨y, yOpen, isLowest, reaches⟩ := inv.attained v vTrail
  cases rest with
  | nil =>
      refine inv.close indexed atEnd fun lower => absurd ?_ lower
      -- Everything open comes back to the only signature on the trail.
      obtain ⟨x, xTrail, below, -⟩ := inv.reachesBack y yOpen
      obtain rfl : x = v := by simpa [trail, atEnd] using xTrail
      have := inv.lowestLe x vTrail
      omega
  | cons frame rest =>
      obtain ⟨caller, edges⟩ := frame
      have callerTrail : caller ∈ s.trail := by simp [trail, atEnd]
      have callerBelow : s.numberOf caller < s.numberOf v := inv.below_end atEnd (by simp)
      have informed := inv.reach yOpen ((inv.reaches_end atEnd callerTrail).trans reaches)
      rw [isLowest] at informed
      refine informed.close indexed atEnd fun _ => ⟨caller, edges, rest, rfl, ?_⟩
      have different : caller ≠ v := by
        rintro rfl
        exact Nat.lt_irrefl _ callerBelow
      rw [lowestOf_reach, lowestOf_reach, if_pos rfl, if_neg different]
      exact Nat.min_le_right _ _

section FollowEdge

variable {v : Text} {e : CallEdge} {edges : List CallEdge} {rest : List (Text × List CallEdge)}
  (inv : s.Invariant g) (indexed : g.Indexed) (atEnd : s.path = (v, e :: edges) :: rest)

include inv indexed atEnd

theorem calls_target : g.Calls v e.target.signature :=
  indexed.calls_iff.mpr ⟨e, inv.pending (atEnd ▸ List.mem_cons_self) List.mem_cons_self, rfl⟩

/-- Following an edge to an unmet signature. -/
theorem followUnmet (isUnmet : e.target.signature ∈ s.unmet) :
    (({ s with path := (v, edges) :: rest } : Search).meet g e.target.signature).Invariant g := by
  have met := inv.meet indexed isUnmet fun x onTrail =>
    (inv.reaches_end atEnd onTrail).tail (inv.calls_target indexed atEnd)
  have vTrail : v ∈ (s.meet g e.target.signature).trail := by simp [trail, Search.meet, atEnd]
  have onPath : (s.meet g e.target.signature).path =
      [(e.target.signature, g.edgesFrom e.target.signature)] ++ (v, e :: edges) :: rest := by
    simp [Search.meet, atEnd]
  exact met.dropEdge _ onPath (met.not_unmet_of_open indexed List.mem_cons_self) fun _ =>
    Nat.le_trans (met.lowestLe v vTrail) (met.le_end onPath vTrail)

/-- Following an edge to an open signature. -/
theorem followOpen (isMet : e.target.signature ∉ s.unmet) (isOpen : e.target.signature ∈ s.stack) :
    (({ s with path := (v, edges) :: rest } : Search).reach v
      (s.numberOf e.target.signature)).Invariant g := by
  have noted := inv.reach isOpen (.single (inv.calls_target indexed atEnd))
  refine noted.dropEdge [] atEnd isMet fun _ => ?_
  rw [lowestOf_reach, if_pos rfl]
  exact Nat.min_le_right _ _

omit indexed in
/-- Following an edge to a closed signature. -/
theorem followClosed (isMet : e.target.signature ∉ s.unmet)
    (isClosed : e.target.signature ∉ s.stack) :
    ({ s with path := (v, edges) :: rest } : Search).Invariant g :=
  inv.dropEdge [] atEnd isMet fun isOpen => absurd isOpen isClosed

end FollowEdge

/-- Following the path to its end keeps the invariant, and nothing met becomes unmet. -/
theorem follow (indexed : g.Indexed) (inv : s.Invariant g) :
    (Search.follow g s).Invariant g ∧ (Search.follow g s).path = [] ∧
      (Search.follow g s).unmet ⊆ s.unmet := by
  fun_induction Search.follow g s with
  | case1 s atEnd => exact ⟨inv, atEnd, List.Subset.refl _⟩
  | case2 s v rest atEnd ih =>
      obtain ⟨after, done, fewer⟩ := ih (inv.finish indexed atEnd)
      exact ⟨after, done, by simpa using fewer⟩
  | case3 s v e edges rest atEnd target s' isUnmet ih =>
      obtain ⟨after, done, fewer⟩ := ih (inv.followUnmet indexed atEnd isUnmet)
      exact ⟨after, done, List.Subset.trans fewer List.erase_subset⟩
  | case4 s v e edges rest atEnd target s' isMet isOpen ih =>
      exact ih (inv.followOpen indexed atEnd isMet isOpen)
  | case5 s v e edges rest atEnd target s' isMet isClosed ih =>
      exact ih (inv.followClosed atEnd isMet isClosed)

end Invariant

end CallWeight.CallGraph.Search
