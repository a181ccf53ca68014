import CallWeight.Proofs.ComponentSearch

/-! # Components are the classes of mutual reachability

The search visits every node, so in the end all nodes are closed, and the invariant of the search
speaks about the components alone: they are strongly connected, no edge leads from an earlier one to
a later one, and every node lies in one of them.

Looking up a number or a node never fails. This is said by a second search that gives up as soon as
a lookup finds nothing, and that never gives up.
-/

namespace CallWeight.CallGraph

namespace Search

/-- Start at a root unless it has been met. -/
def visitRoot (g : CallGraph) (s : Search) (root : Text) : Search :=
  if root ∈ s.unmet then follow g (s.meet g root) else s

theorem Invariant.visitRoot {g : CallGraph} {s : Search} (inv : s.Invariant g) (indexed : g.Indexed)
    (idle : s.path = []) (root : Text) :
    (s.visitRoot g root).Invariant g ∧ (s.visitRoot g root).path = [] ∧
      (s.visitRoot g root).unmet ⊆ s.unmet ∧ root ∉ (s.visitRoot g root).unmet := by
  unfold Search.visitRoot
  split
  · rename_i isUnmet
    have met := inv.meet indexed isUnmet (by simp [trail, idle])
    obtain ⟨after, done, fewer⟩ := met.follow indexed
    refine ⟨after, done, List.Subset.trans fewer List.erase_subset, fun stillUnmet => ?_⟩
    exact met.not_unmet_of_open indexed List.mem_cons_self (fewer stillUnmet)
  · rename_i isMet
    exact ⟨inv, idle, List.Subset.refl _, isMet⟩

/-- After a round through the roots none of them is unmet. -/
theorem Invariant.visitRoots {g : CallGraph} {s : Search} (inv : s.Invariant g) (indexed : g.Indexed)
    (idle : s.path = []) (roots : List Text) :
    (roots.foldl (Search.visitRoot g) s).Invariant g ∧
      (roots.foldl (Search.visitRoot g) s).path = [] ∧
      (roots.foldl (Search.visitRoot g) s).unmet ⊆ s.unmet ∧
      ∀ root ∈ roots, root ∉ (roots.foldl (Search.visitRoot g) s).unmet := by
  induction roots generalizing s with
  | nil => exact ⟨inv, idle, List.Subset.refl _, by simp⟩
  | cons root rest ih =>
      obtain ⟨after, done, fewer, rootMet⟩ := inv.visitRoot indexed idle root
      obtain ⟨afterRest, doneRest, fewerRest, restMet⟩ := ih after done
      refine ⟨afterRest, doneRest, List.Subset.trans fewerRest fewer, ?_⟩
      intro other isRoot
      rcases List.mem_cons.mp isRoot with rfl | inRest
      · exact fun stillUnmet => rootMet (fewerRest stillUnmet)
      · exact restMet other inRest

end Search

/-! ## A search that checks its lookups -/

namespace Search

/-- Note that a signature reaches an open number, if one has been noted for it before. -/
def reach? (s : Search) (signature : Text) (number : Nat) : Option Search := do
  let lowest ← s.lowest.get? signature
  return { s with lowest := s.lowest.insert signature (min lowest number) }

/-- Tell the caller on the path what a finished callee reaches, if both have a number noted. -/
def inform? (s : Search) (signature : Text) : Option Search :=
  match s.path with
  | (caller, _) :: _ => do s.reach? caller (← s.lowest.get? signature)
  | [] => some s

/-- Take a component off the stack, if the stack holds its first signature and all its signatures
    are nodes. -/
def popTo? (g : CallGraph) (signature : Text) : List Text → Option (List Text × List Text)
  | [] => none
  | top :: rest => do
      let p ← g.nodes.get? top
      if top = signature then return ([p.signature], rest)
      let (component, others) ← popTo? g signature rest
      return (p.signature :: component, others)

/-- Close the component of a signature if it reaches nothing lower than itself, if it has both
    numbers. -/
def close? (g : CallGraph) (s : Search) (signature : Text) : Option Search := do
  let lowest ← s.lowest.get? signature
  let number ← s.number.get? signature
  if lowest = number then
    let (component, stack) ← popTo? g signature s.stack
    return { s with stack, closed := component :: s.closed }
  else return s

theorem reach?_eq {s : Search} {v : Text} (isRated : (s.lowest.get? v).isSome) (n : Nat) :
    s.reach? v n = some (s.reach v n) := by
  obtain ⟨lowest, found⟩ := Option.isSome_iff_exists.mp isRated
  simp [reach?, reach, lowestOf, found]

theorem unmet_of_reach? {s t : Search} {v : Text} {n : Nat} (reached : s.reach? v n = some t) :
    t.unmet = s.unmet ∧ t.path = s.path := by
  cases found : s.lowest.get? v with
  | none => simp [reach?, found] at reached
  | some lowest =>
      simp only [reach?, found, Option.pure_def, Option.bind_eq_bind, Option.bind_some,
        Option.some.injEq] at reached
      subst reached
      exact ⟨rfl, rfl⟩

theorem unmet_of_inform? {s t : Search} {v : Text} (informed : s.inform? v = some t) :
    t.unmet = s.unmet ∧ t.path = s.path := by
  unfold inform? at informed
  split at informed
  · cases found : s.lowest.get? v with
    | none => simp [found] at informed
    | some lowest => exact unmet_of_reach? (by simpa [found] using informed)
  · cases informed
    exact ⟨rfl, rfl⟩

theorem unmet_of_close? {g : CallGraph} {s t : Search} {v : Text} (closed : s.close? g v = some t) :
    t.unmet = s.unmet ∧ t.path = s.path := by
  simp only [close?, Option.bind_eq_bind, Option.bind_eq_some_iff] at closed
  obtain ⟨lowest, -, number, -, closed⟩ := closed
  split at closed
  · obtain ⟨popped, -, closed⟩ := Option.bind_eq_some_iff.mp closed
    cases closed
    exact ⟨rfl, rfl⟩
  · cases closed
    exact ⟨rfl, rfl⟩

/-- Follow the path until it is empty or a lookup finds nothing. -/
def follow? (g : CallGraph) (s : Search) : Option Search :=
  match _path : s.path with
  | [] => some s
  | (signature, []) :: rest =>
      match _informed : ({ s with path := rest } : Search).inform? signature with
      | none => none
      | some informed =>
          match _closed : informed.close? g signature with
          | none => none
          | some closed => follow? g closed
  | (signature, e :: edges) :: rest =>
      let target := e.target.signature
      let s' := { s with path := (signature, edges) :: rest }
      match s.number.get? target with
      | none => if target ∈ s.unmet then follow? g (s'.meet g target) else none
      | some number =>
          if target ∈ s.stack then
            match _reached : s'.reach? signature number with
            | none => none
            | some reached => follow? g reached
          else follow? g s'
termination_by (s.unmet.length, pathWork s.path)
decreasing_by
  · obtain ⟨unmetI, pathI⟩ := unmet_of_inform? _informed
    obtain ⟨unmetC, pathC⟩ := unmet_of_close? _closed
    rw [unmetC, unmetI, pathC, pathI]
    exact Prod.Lex.right _ (by simp [_path, pathWork])
  · rename_i isUnmet
    apply Prod.Lex.left
    have shorter : (s.unmet.erase e.target.signature).length = s.unmet.length - 1 :=
      List.length_erase_of_mem isUnmet
    have positive := List.length_pos_of_mem isUnmet
    simp only [meet]
    omega
  · obtain ⟨unmetR, pathR⟩ := unmet_of_reach? _reached
    rw [unmetR, pathR]
    exact Prod.Lex.right _ (by simp [_path, s', pathWork])
  · exact Prod.Lex.right _ (by simp [_path, pathWork])

/-- Start at a root unless it has been met, and give up if a lookup finds nothing. -/
def visitRoot? (g : CallGraph) (s : Search) (root : Text) : Option Search :=
  if root ∈ s.unmet then follow? g (s.meet g root) else some s

section FollowChecked

variable {g : CallGraph} {s t u : Search} {v : Text} {e : CallEdge} {edges : List CallEdge}
  {rest : List (Text × List CallEdge)}

theorem follow?_finish (atEnd : s.path = (v, []) :: rest)
    (informed : ({ s with path := rest } : Search).inform? v = some t)
    (closed : t.close? g v = some u) : follow? g s = follow? g u := by
  obtain ⟨unmet, number, lowest, stack, path, components⟩ := s
  subst atEnd
  rw [follow?]
  simp only
  split
  · simp_all
  · rename_i t' found
    obtain rfl : t = t' := Option.some.inj (informed.symm.trans found)
    split
    · simp_all
    · simp_all

theorem follow?_unmet (atEnd : s.path = (v, e :: edges) :: rest)
    (unnumbered : s.number.get? e.target.signature = none)
    (isUnmet : e.target.signature ∈ s.unmet) :
    follow? g s =
      follow? g (({ s with path := (v, edges) :: rest } : Search).meet g e.target.signature) := by
  obtain ⟨unmet, number, lowest, stack, path, components⟩ := s
  subst atEnd
  rw [follow?]
  simp_all

theorem follow?_open {n : Nat} (atEnd : s.path = (v, e :: edges) :: rest)
    (numbered : s.number.get? e.target.signature = some n) (isOpen : e.target.signature ∈ s.stack)
    (reached : ({ s with path := (v, edges) :: rest } : Search).reach? v n = some t) :
    follow? g s = follow? g t := by
  obtain ⟨unmet, number, lowest, stack, path, components⟩ := s
  subst atEnd
  rw [follow?]
  simp only [numbered, isOpen]
  simp
  split
  · simp_all
  · simp_all

theorem follow?_closed {n : Nat} (atEnd : s.path = (v, e :: edges) :: rest)
    (numbered : s.number.get? e.target.signature = some n)
    (isClosed : e.target.signature ∉ s.stack) :
    follow? g s = follow? g { s with path := (v, edges) :: rest } := by
  obtain ⟨unmet, number, lowest, stack, path, components⟩ := s
  subst atEnd
  rw [follow?]
  simp_all

end FollowChecked

theorem popTo?_eq {g : CallGraph} (indexed : g.Indexed) {v : Text} {stack : List Text}
    (nodes : ∀ x ∈ stack, x ∈ g.nodes.keys) (isOpen : v ∈ stack) :
    popTo? g v stack = some (popTo v stack) := by
  induction stack with
  | nil => cases isOpen
  | cons top rest ih =>
      have isNode := (OrderedMap.mem_keys_iff _ _).mp (nodes top List.mem_cons_self)
      obtain ⟨p, found⟩ := Option.isSome_iff_exists.mp isNode
      by_cases same : top = v
      · subst same
        simp [popTo?, popTo, found, indexed.nodeOf found]
      · have below : v ∈ rest := (List.mem_cons.mp isOpen).resolve_left (Ne.symm same)
        have popped := ih (fun x inRest => nodes x (List.mem_cons_of_mem _ inRest)) below
        simp [popTo?, popTo, found, same, popped, indexed.nodeOf found]

theorem isSome_lowest_inform {s : Search} {x : Text} (isRated : (s.lowest.get? x).isSome)
    (v : Text) : ((s.inform v).lowest.get? x).isSome := by
  unfold inform
  split
  · simp only [reach, OrderedMap.get?_insert]
    split
    · rfl
    · exact isRated
  · exact isRated

@[simp] theorem number_inform (s : Search) (v : Text) : (s.inform v).number = s.number := by
  unfold inform
  split <;> rfl

@[simp] theorem stack_inform (s : Search) (v : Text) : (s.inform v).stack = s.stack := by
  unfold inform
  split <;> rfl

theorem close?_eq {g : CallGraph} {s : Search} (indexed : g.Indexed) {v : Text}
    (isRated : (s.lowest.get? v).isSome) (isNumbered : (s.number.get? v).isSome)
    (nodes : ∀ x ∈ s.stack, x ∈ g.nodes.keys) (isOpen : v ∈ s.stack) :
    s.close? g v = some (s.close v) := by
  obtain ⟨lowest, rating⟩ := Option.isSome_iff_exists.mp isRated
  obtain ⟨number, numbering⟩ := Option.isSome_iff_exists.mp isNumbered
  have popped := popTo?_eq indexed nodes isOpen
  simp only [close?, close, lowestOf, numberOf, rating, numbering, popped, Option.bind_eq_bind,
    Option.bind_some, Option.getD_some]
  split <;> rfl

namespace Invariant

variable {g : CallGraph} {s : Search}

theorem isNumbered (inv : s.Invariant g) {x : Text} (isMet : x ∈ s.stack ++ s.closed.flatten) :
    s.number.get? x = some (s.numberOf x) := by
  obtain ⟨n, found⟩ := Option.isSome_iff_exists.mp ((inv.numbered x).mpr isMet)
  simp [numberOf, found]

theorem inform?_eq (inv : s.Invariant g) {v : Text} {rest : List (Text × List CallEdge)}
    (atEnd : s.path = (v, []) :: rest) :
    ({ s with path := rest } : Search).inform? v =
      some (({ s with path := rest } : Search).inform v) := by
  obtain ⟨lowest, rating⟩ := Option.isSome_iff_exists.mp (inv.rated v (by simp [trail, atEnd]))
  cases rest with
  | nil => rfl
  | cons frame rest =>
      have isRated := inv.rated frame.1 (by simp [trail, atEnd])
      have reached := reach?_eq (s := { s with path := frame :: rest }) isRated lowest
      simpa [inform?, inform, lowestOf, rating] using reached

/-- While the invariant holds, no lookup of the search finds nothing. -/
theorem follow?_eq (inv : s.Invariant g) (indexed : g.Indexed) :
    Search.follow? g s = some (Search.follow g s) := by
  fun_induction Search.follow g s with
  | case1 s atEnd =>
      unfold Search.follow?
      split <;> simp_all
  | case2 s v rest atEnd ih =>
      have vTrail : v ∈ s.trail := by simp [trail, atEnd]
      have informed := inv.inform?_eq atEnd
      have closed := close?_eq (s := ({ s with path := rest } : Search).inform v) indexed
        (isSome_lowest_inform (s := { s with path := rest }) (inv.rated v vTrail) v)
        (by simpa using (inv.numbered v).mpr (List.mem_append_left _ (inv.isOpen vTrail)))
        (fun x isOpen => inv.mem_nodes_iff.mpr (.inr (.inl (by simpa using isOpen))))
        (by simpa using inv.isOpen vTrail)
      exact (follow?_finish atEnd informed closed).trans (ih (inv.finish indexed atEnd))
  | case3 s v e edges rest atEnd target s' isUnmet ih =>
      have unnumbered := inv.unnumbered indexed isUnmet
      exact (follow?_unmet atEnd unnumbered isUnmet).trans
        (ih (inv.followUnmet indexed atEnd isUnmet))
  | case4 s v e edges rest atEnd target s' isMet isOpen ih =>
      have numbered := inv.isNumbered (List.mem_append_left _ isOpen)
      have reached := reach?_eq (s := s') (inv.rated v (by simp [trail, atEnd])) (s.numberOf target)
      exact (follow?_open atEnd numbered isOpen reached).trans
        (ih (inv.followOpen indexed atEnd isMet isOpen))
  | case5 s v e edges rest atEnd target s' isMet isClosed ih =>
      have leaves := inv.pending (atEnd ▸ List.mem_cons_self) (List.mem_cons_self (a := e))
      have isMetNode := (inv.mem_nodes_iff.mp (indexed.target_mem_nodes leaves)).resolve_left isMet
      have numbered := inv.isNumbered (List.mem_append.mpr isMetNode)
      exact (follow?_closed atEnd numbered isClosed).trans
        (ih (inv.followClosed atEnd isMet isClosed))

theorem visitRoot?_eq (inv : s.Invariant g) (indexed : g.Indexed) (idle : s.path = [])
    (root : Text) : s.visitRoot? g root = some (s.visitRoot g root) := by
  unfold Search.visitRoot? Search.visitRoot
  split
  · rename_i isUnmet
    exact (inv.meet indexed isUnmet (by simp [trail, idle])).follow?_eq indexed
  · rfl

theorem visitRoots?_eq (inv : s.Invariant g) (indexed : g.Indexed) (idle : s.path = [])
    (roots : List Text) :
    roots.foldlM (Search.visitRoot? g) s = some (roots.foldl (Search.visitRoot g) s) := by
  induction roots generalizing s with
  | nil => rfl
  | cons root rest ih =>
      obtain ⟨after, done, -⟩ := inv.visitRoot indexed idle root
      simpa [inv.visitRoot?_eq indexed idle root] using ih after done

end Invariant

end Search

/-- The components of a graph, unless a lookup of the search finds nothing. -/
def components? (g : CallGraph) : Option (List (List Text)) := do
  let start : Search := { unmet := g.nodes.keys }
  let final ← g.nodes.keys.foldlM (Search.visitRoot? g) start
  return final.closed.reverse

theorem Indexed.components?_eq {g : CallGraph} (indexed : g.Indexed) :
    g.components? = some g.components := by
  have visited := (Search.Invariant.start g).visitRoots?_eq indexed rfl g.nodes.keys
  simp only [components?, visited, Option.bind_eq_bind, Option.bind_some]
  rfl

/-- What the search leaves behind: everything is closed. -/
theorem Indexed.search_closes {g : CallGraph} (indexed : g.Indexed) :
    ∃ s : Search, s.Invariant g ∧ s.closed.flatten.Perm g.nodes.keys ∧
      g.components = s.closed.reverse := by
  have start := Search.Invariant.start g
  obtain ⟨inv, done, -, allMet⟩ := start.visitRoots indexed rfl g.nodes.keys
  refine ⟨_, inv, ?_, rfl⟩
  generalize g.nodes.keys.foldl (Search.visitRoot g) { unmet := g.nodes.keys } = s at *
  have noneUnmet : s.unmet = [] := by
    refine List.eq_nil_iff_forall_not_mem.mpr fun x isUnmet => ?_
    exact allMet x (inv.mem_nodes_iff.mpr (.inl isUnmet)) isUnmet
  have noneOpen : s.stack = [] := by
    refine List.eq_nil_iff_forall_not_mem.mpr fun x isOpen => ?_
    obtain ⟨y, onTrail, -⟩ := inv.reachesBack x isOpen
    simp [Search.trail, done] at onTrail
  simpa [noneUnmet, noneOpen] using inv.parts

namespace Indexed

variable {g : CallGraph} (indexed : g.Indexed)

include indexed

theorem components_perm : g.components.flatten.Perm g.nodes.keys := by
  obtain ⟨s, -, all, components⟩ := indexed.search_closes
  rw [components]
  exact (List.reverse_perm _).flatten.trans all

theorem components_connected {c : List Text} (isComponent : c ∈ g.components) {x y : Text}
    (xIn : x ∈ c) (yIn : y ∈ c) : g.Reaches x y := by
  obtain ⟨s, inv, -, components⟩ := indexed.search_closes
  rw [components, List.mem_reverse] at isComponent
  exact inv.connected c isComponent x xIn y yIn

/-- No edge leads from an earlier component to a later one. -/
theorem components_ordered :
    g.components.Pairwise fun earlier later => ∀ x ∈ earlier, ∀ y ∈ later, ¬ g.Calls x y := by
  obtain ⟨s, inv, -, components⟩ := indexed.search_closes
  rw [components, List.pairwise_reverse]
  exact inv.ordered

theorem nil_notMem_components : [] ∉ g.components := by
  obtain ⟨s, inv, -, components⟩ := indexed.search_closes
  rw [components, List.mem_reverse]
  exact inv.inhabited

theorem nodup_components : g.components.flatten.Nodup :=
  indexed.components_perm.nodup_iff.mpr indexed.distinctNodes

theorem exists_component {x : Text} (isNode : x ∈ g.nodes.keys) :
    ∃ (i : Nat) (c : List Text), g.components[i]? = some c ∧ x ∈ c := by
  obtain ⟨c, isComponent, xIn⟩ := List.mem_flatten.mp (indexed.components_perm.mem_iff.mpr isNode)
  obtain ⟨i, found⟩ := List.getElem?_of_mem isComponent
  exact ⟨i, c, found, xIn⟩

theorem component_unique {x : Text} {i j : Nat} {c d : List Text}
    (atI : g.components[i]? = some c) (atJ : g.components[j]? = some d) (xIn : x ∈ c) (xIn' : x ∈ d) :
    i = j := by
  have disjoint := (List.nodup_flatten.mp indexed.nodup_components).2
  rw [List.pairwise_iff_getElem] at disjoint
  obtain ⟨iInside, rfl⟩ := List.getElem?_eq_some_iff.mp atI
  obtain ⟨jInside, rfl⟩ := List.getElem?_eq_some_iff.mp atJ
  rcases Nat.lt_trichotomy i j with before | same | after
  · exact absurd xIn' (disjoint i j iInside jInside before xIn)
  · exact same
  · exact absurd xIn (disjoint j i jInside iInside after xIn')

/-- Callees are not closed later than their callers. -/
theorem component_le_of_calls {x y : Text} {i j : Nat} {c d : List Text} (calls : g.Calls x y)
    (atI : g.components[i]? = some c) (atJ : g.components[j]? = some d) (xIn : x ∈ c) (yIn : y ∈ d) :
    j ≤ i := by
  have ordered := indexed.components_ordered
  rw [List.pairwise_iff_getElem] at ordered
  obtain ⟨iInside, rfl⟩ := List.getElem?_eq_some_iff.mp atI
  obtain ⟨jInside, rfl⟩ := List.getElem?_eq_some_iff.mp atJ
  by_contra later
  exact ordered i j iInside jInside (Nat.not_le.mp later) x xIn y yIn calls

theorem component_le_of_reaches {x y : Text} {i j : Nat} {c d : List Text}
    (reaches : g.Reaches x y) (atI : g.components[i]? = some c) (atJ : g.components[j]? = some d)
    (xIn : x ∈ c) (yIn : y ∈ d) : j ≤ i := by
  induction reaches generalizing j d with
  | refl => exact Nat.le_of_eq (indexed.component_unique atJ atI yIn xIn)
  | tail _ calls ih =>
      obtain ⟨k, b, atK, zIn⟩ := indexed.exists_component (indexed.mem_nodes_of_calls calls).1
      exact Nat.le_trans (indexed.component_le_of_calls calls atK atJ zIn yIn) (ih atK zIn)

theorem same_component_iff {x y : Text} (xNode : x ∈ g.nodes.keys) (yNode : y ∈ g.nodes.keys) :
    (∃ c ∈ g.components, x ∈ c ∧ y ∈ c) ↔ g.Reaches x y ∧ g.Reaches y x := by
  constructor
  · rintro ⟨c, isComponent, xIn, yIn⟩
    exact ⟨indexed.components_connected isComponent xIn yIn,
      indexed.components_connected isComponent yIn xIn⟩
  · rintro ⟨forth, back⟩
    obtain ⟨i, c, atI, xIn⟩ := indexed.exists_component xNode
    obtain ⟨j, d, atJ, yIn⟩ := indexed.exists_component yNode
    have same : i = j := Nat.le_antisymm (indexed.component_le_of_reaches back atJ atI yIn xIn)
      (indexed.component_le_of_reaches forth atI atJ xIn yIn)
    subst same
    obtain rfl : c = d := Option.some.inj (atI.symm.trans atJ)
    exact ⟨c, List.mem_of_getElem? atI, xIn, yIn⟩

/-- A component with a call from one of its members to another, or to itself, is recursive. -/
theorem mem_cycles {c : List Text} (isComponent : c ∈ g.components) {x y : Text} (xIn : x ∈ c)
    (yIn : y ∈ c) (calls : g.Calls x y) : c ∈ g.cycles := by
  refine List.mem_filter.mpr ⟨isComponent, ?_⟩
  split
  · cases List.mem_singleton.mp xIn
    cases List.mem_singleton.mp yIn
    obtain ⟨e, leaves, arrives⟩ := indexed.calls_iff.mp calls
    exact List.any_eq_true.mpr ⟨e, leaves, decide_eq_true arrives⟩
  · rfl

end Indexed

/-- Whatever edges are added in whatever order, the search for components finds what it looks up, puts
    every node into one component and there once, puts two nodes together if each reaches the other,
    and puts callees before callers. -/
theorem components_partition_by_reachability (edges : List CallEdge) :
    let g := ofEdges edges
    g.components? = some g.components ∧
      (∀ x, x ∈ g.components.flatten ↔ x ∈ g.nodes.keys) ∧
      g.components.flatten.Nodup ∧
      (∀ x ∈ g.nodes.keys, ∀ y ∈ g.nodes.keys,
        (∃ c ∈ g.components, x ∈ c ∧ y ∈ c) ↔ g.Reaches x y ∧ g.Reaches y x) ∧
      ∀ e ∈ g.edges, ∀ (i j : Nat) (c d : List Text), g.components[i]? = some c →
        g.components[j]? = some d → e.source.signature ∈ c → e.target.signature ∈ d → i ≠ j →
        j < i := by
  have indexed := indexed_ofEdges edges
  refine ⟨indexed.components?_eq, fun x => indexed.components_perm.mem_iff,
    indexed.nodup_components, fun x xNode y yNode => indexed.same_component_iff xNode yNode, ?_⟩
  intro e isEdge i j c d atI atJ sourceIn targetIn different
  have notLater := indexed.component_le_of_calls ⟨e, isEdge, rfl, rfl⟩ atI atJ sourceIn targetIn
  exact Nat.lt_of_le_of_ne notLater different.symm

end CallWeight.CallGraph
