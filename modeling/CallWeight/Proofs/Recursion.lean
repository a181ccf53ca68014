import CallWeight.Proofs.Components

/-! # Recursive procedures

A procedure is recursive if a chain of at least one edge leads from it back to itself. A component of
several procedures is made of recursive ones only; a component of a single procedure needs an edge from
that procedure to itself. So the recursive components are the classes of mutual reachability among the
recursive procedures.
-/

namespace CallWeight.CallGraph

/-- Whether a chain of at least one edge leads from a signature back to itself. -/
def Recurs (g : CallGraph) (x : Text) : Prop := Relation.TransGen g.Calls x x

namespace Indexed

variable {g : CallGraph} (indexed : g.Indexed)

include indexed

theorem nodup_of_component {c : List Text} (isComponent : c ∈ g.components) : c.Nodup :=
  (List.nodup_flatten.mp indexed.nodup_components).1 c isComponent

theorem calls_of_isSelfRecursive {x : Text} (calls : g.isSelfRecursive x = true) : g.Calls x x := by
  obtain ⟨e, leaves, arrives⟩ := List.any_eq_true.mp calls
  exact indexed.calls_iff.mpr ⟨e, leaves, of_decide_eq_true arrives⟩

/-- Whoever reaches another procedure and is reached by it is recursive. -/
theorem recurs_of_other {c : List Text} (isComponent : c ∈ g.components) {x y : Text} (xIn : x ∈ c)
    (yIn : y ∈ c) (other : y ≠ x) : g.Recurs x := by
  have back := indexed.components_connected isComponent yIn xIn
  have forth := indexed.components_connected isComponent xIn yIn
  rcases Relation.reflTransGen_iff_eq_or_transGen.mp forth with same | onward
  · exact absurd same other
  · exact onward.trans_left back

theorem recurs_of_mem_cycles {c : List Text} (isCycle : c ∈ g.cycles) {x : Text} (xIn : x ∈ c) :
    g.Recurs x := by
  obtain ⟨isComponent, recursive⟩ := List.mem_filter.mp isCycle
  cases c with
  | nil => cases xIn
  | cons first rest =>
      cases rest with
      | nil =>
          cases List.mem_singleton.mp xIn
          exact .single (indexed.calls_of_isSelfRecursive recursive)
      | cons second rest =>
          have different : first ≠ second := by
            intro same
            have distinct := indexed.nodup_of_component isComponent
            simp [same] at distinct
          by_cases isFirst : x = first
          · exact indexed.recurs_of_other isComponent xIn (y := second) (by simp)
              (isFirst ▸ different.symm)
          · exact indexed.recurs_of_other isComponent xIn List.mem_cons_self (Ne.symm isFirst)

theorem exists_cycle_of_recurs {x : Text} (recurs : g.Recurs x) : ∃ c ∈ g.cycles, x ∈ c := by
  obtain ⟨y, calls, back⟩ := Relation.TransGen.head'_iff.mp recurs
  obtain ⟨xNode, yNode⟩ := indexed.mem_nodes_of_calls calls
  obtain ⟨c, isComponent, xIn, yIn⟩ :=
    (indexed.same_component_iff xNode yNode).mpr ⟨.single calls, back⟩
  exact ⟨c, indexed.mem_cycles isComponent xIn yIn calls, xIn⟩

theorem pairwise_disjoint_cycles : g.cycles.Pairwise List.Disjoint :=
  (List.nodup_flatten.mp indexed.nodup_components).2.filter _

/-- A procedure lies in one component only. -/
theorem component_eq {c d : List Text} (isC : c ∈ g.components) (isD : d ∈ g.components) {x : Text}
    (inC : x ∈ c) (inD : x ∈ d) : c = d := by
  obtain ⟨i, atI⟩ := List.getElem?_of_mem isC
  obtain ⟨j, atJ⟩ := List.getElem?_of_mem isD
  obtain rfl := indexed.component_unique atI atJ inC inD
  exact Option.some.inj (atI.symm.trans atJ)

theorem cycle_eq_iff {c d : List Text} (isC : c ∈ g.cycles) (isD : d ∈ g.cycles) {x y : Text}
    (xIn : x ∈ c) (yIn : y ∈ d) : c = d ↔ g.Reaches x y ∧ g.Reaches y x := by
  have isC := (List.mem_filter.mp isC).1
  have isD := (List.mem_filter.mp isD).1
  have node {z : Text} {b : List Text} (isB : b ∈ g.components) (zIn : z ∈ b) :
      z ∈ g.nodes.keys :=
    indexed.components_perm.mem_iff.mp (List.mem_flatten.mpr ⟨b, isB, zIn⟩)
  rw [← indexed.same_component_iff (node isC xIn) (node isD yIn)]
  constructor
  · rintro rfl
    exact ⟨c, isC, xIn, yIn⟩
  · rintro ⟨b, isB, xInB, yInB⟩
    exact (indexed.component_eq isC isB xIn xInB).trans (indexed.component_eq isB isD yInB yIn)

end Indexed

/-- Whatever edges are added in whatever order, the recursive components repeat no procedure and share
    none, they hold exactly the procedures from which a chain of edges leads back to themselves, and two
    of these are in the same component if each reaches the other. -/
theorem cycles_are_classes_of_recursion (edges : List CallEdge) :
    let g := ofEdges edges
    (∀ c ∈ g.cycles, c.Nodup) ∧ g.cycles.Pairwise List.Disjoint ∧
      (∀ x, (∃ c ∈ g.cycles, x ∈ c) ↔ Relation.TransGen g.Calls x x) ∧
      ∀ c ∈ g.cycles, ∀ d ∈ g.cycles, ∀ x ∈ c, ∀ y ∈ d,
        c = d ↔ g.Reaches x y ∧ g.Reaches y x := by
  have indexed := indexed_ofEdges edges
  refine ⟨fun c isCycle => ?_, indexed.pairwise_disjoint_cycles, fun x => ⟨?_, ?_⟩, ?_⟩
  · exact indexed.nodup_of_component (List.mem_filter.mp isCycle).1
  · rintro ⟨c, isCycle, xIn⟩
    exact indexed.recurs_of_mem_cycles isCycle xIn
  · exact indexed.exists_cycle_of_recurs
  · intro c isC d isD x xIn y yIn
    exact indexed.cycle_eq_iff isC isD xIn yIn

end CallWeight.CallGraph
