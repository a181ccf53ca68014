import CallWeight.CallGraph.Basic
import Mathlib

/-! # What the indexes of a call graph hold

A graph that is built edge by edge keeps five views of one list of edges. `Indexed` says what each
view holds in terms of that list, and every addition preserves it. Nothing after this module looks
at how the views are stored.

Reachability is taken from the list of edges alone, so it does not depend on any index.
-/

namespace CallWeight.CallGraph

/-- The graph that a sequence of additions builds. -/
def ofEdges (edges : List CallEdge) : CallGraph := edges.foldl addEdge {}

/-- Whether an edge leads from one signature to another. -/
def Calls (g : CallGraph) (caller callee : Text) : Prop :=
  ∃ e ∈ g.edges, e.source.signature = caller ∧ e.target.signature = callee

/-- Whether a chain of edges, possibly empty, leads from one signature to another. -/
def Reaches (g : CallGraph) : Text → Text → Prop := Relation.ReflTransGen g.Calls

/-- The views of a graph agree with its list of edges. -/
structure Indexed (g : CallGraph) : Prop where
  outOf : ∀ site, g.edgesOutOf site = g.edges.filter (·.site = site)
  leaving : ∀ signature, g.edgesFrom signature = g.edges.filter (·.source.signature = signature)
  endpoints : ∀ signature, signature ∈ g.nodes.keys ↔
    ∃ e ∈ g.edges, e.source.signature = signature ∨ e.target.signature = signature
  distinctNodes : g.nodes.keys.Nodup
  nodeOf : ∀ {signature p}, g.nodes.get? signature = some p → p.signature = signature
  /-- No call site has two edges to one target. -/
  simple : g.edges.Pairwise fun e f => e.site = f.site → e.target.signature ≠ f.target.signature

section Filing

variable {α : Type} [DecidableEq α]

/-- If an index files edges under a key of theirs, it still does after another edge is filed. -/
theorem file_eq_filter {index : OrderedMap α (List CallEdge)} {edges : List CallEdge}
    (key : CallEdge → α)
    (filed : ∀ k, (index.get? k).getD [] = edges.filter (key · = k)) (e : CallEdge) (k : α) :
    ((file index (key e) e).get? k).getD [] = (edges ++ [e]).filter (key · = k) := by
  unfold file
  rw [OrderedMap.get?_insert, List.filter_append]
  by_cases same : key e = k
  · subst same
    simp [filed]
  · simp [same, filed]

end Filing

theorem Indexed.empty : Indexed {} where
  outOf _ := rfl
  leaving _ := rfl
  endpoints _ := by simp [OrderedMap.keys, OrderedMap.empty]
  distinctNodes := List.nodup_nil
  nodeOf found := by simp at found
  simple := .nil

theorem mem_nodes_insertEdge (g : CallGraph) (e : CallEdge) (signature : Text) :
    signature ∈ (g.insertEdge e).nodes.keys ↔
      signature ∈ g.nodes.keys ∨ e.source.signature = signature ∨ e.target.signature = signature := by
  simp only [insertEdge, OrderedMap.mem_keys_insertNew, eq_comm (a := signature)]
  grind

/-- Filing a procedure under its own signature keeps all procedures under theirs. -/
theorem signature_of_insertNew {nodes : OrderedMap Text Procedure}
    (own : ∀ {signature p}, nodes.get? signature = some p → p.signature = signature)
    (q : Procedure) {signature : Text} {p : Procedure}
    (found : (nodes.insertNew q.signature q).get? signature = some p) :
    p.signature = signature := by
  rw [OrderedMap.get?_insertNew] at found
  split at found
  · rename_i same
    subst same
    cases old : nodes.get? q.signature with
    | none =>
        obtain rfl : q = p := by simpa [old] using found
        rfl
    | some r =>
        obtain rfl : r = p := by simpa [old] using found
        exact own old
  · exact own found

/-- A call site without an edge to a target may get one. -/
theorem Indexed.insertEdge {g : CallGraph} (indexed : g.Indexed) {e : CallEdge}
    (isNew : g.hasEdge e.site e.target.signature = false) : (g.insertEdge e).Indexed where
  outOf := file_eq_filter (·.site) indexed.outOf e
  leaving := file_eq_filter (·.source.signature) indexed.leaving e
  endpoints signature := by
    rw [mem_nodes_insertEdge, indexed.endpoints]
    simp only [CallGraph.insertEdge, List.mem_append, List.mem_singleton]
    constructor
    · rintro (⟨f, listed, atEnd⟩ | atEnd)
      · exact ⟨f, .inl listed, atEnd⟩
      · exact ⟨e, .inr rfl, atEnd⟩
    · rintro ⟨f, listed | rfl, atEnd⟩
      · exact .inl ⟨f, listed, atEnd⟩
      · exact .inr atEnd
  distinctNodes := OrderedMap.nodup_keys_insertNew
    (OrderedMap.nodup_keys_insertNew indexed.distinctNodes _ _) _ _
  nodeOf := signature_of_insertNew (signature_of_insertNew indexed.nodeOf e.source) e.target
  simple := by
    refine List.pairwise_append.mpr ⟨indexed.simple, List.pairwise_singleton _ _, ?_⟩
    intro f listed last isLast sameSite sameTarget
    obtain rfl : last = e := by simpa using isLast
    have leaves : f ∈ g.edgesOutOf last.site := by
      rw [indexed.outOf]
      simpa [listed] using sameSite
    simp only [hasEdge, List.any_eq_false, decide_eq_true_eq] at isNew
    exact isNew f leaves sameTarget

theorem Indexed.addEdge {g : CallGraph} (indexed : g.Indexed) (e : CallEdge) :
    (g.addEdge e).Indexed := by
  unfold CallGraph.addEdge
  split
  · exact indexed
  · rename_i isNew
    exact indexed.insertEdge (by simpa using isNew)

/-- Every sequence of additions builds a graph whose views agree. -/
theorem indexed_ofEdges (edges : List CallEdge) : (ofEdges edges).Indexed := by
  unfold ofEdges
  suffices everyStart : ∀ g : CallGraph, g.Indexed → (edges.foldl CallGraph.addEdge g).Indexed from
    everyStart {} .empty
  induction edges with
  | nil => exact fun g indexed => indexed
  | cons e rest ih => exact fun g indexed => ih (g.addEdge e) (indexed.addEdge e)

namespace Indexed

variable {g : CallGraph} (indexed : g.Indexed)

include indexed

theorem mem_edgesOutOf {site : Site} {e : CallEdge} :
    e ∈ g.edgesOutOf site ↔ e ∈ g.edges ∧ e.site = site := by
  simp [indexed.outOf]

theorem calls_iff {caller callee : Text} :
    g.Calls caller callee ↔ ∃ e ∈ g.edgesFrom caller, e.target.signature = callee := by
  simp only [Calls, indexed.leaving, List.mem_filter, decide_eq_true_eq]
  constructor
  · rintro ⟨e, listed, leaves, arrives⟩
    exact ⟨e, ⟨listed, leaves⟩, arrives⟩
  · rintro ⟨e, ⟨listed, leaves⟩, arrives⟩
    exact ⟨e, listed, leaves, arrives⟩

theorem target_mem_nodes {caller : Text} {e : CallEdge} (leaves : e ∈ g.edgesFrom caller) :
    e.target.signature ∈ g.nodes.keys := by
  rw [indexed.leaving] at leaves
  exact (indexed.endpoints _).mpr ⟨e, (List.mem_filter.mp leaves).1, .inr rfl⟩

theorem mem_nodes_of_calls {caller callee : Text} (calls : g.Calls caller callee) :
    caller ∈ g.nodes.keys ∧ callee ∈ g.nodes.keys := by
  obtain ⟨e, listed, leaves, arrives⟩ := calls
  exact ⟨(indexed.endpoints _).mpr ⟨e, listed, .inl leaves⟩,
    (indexed.endpoints _).mpr ⟨e, listed, .inr arrives⟩⟩

end Indexed

end CallWeight.CallGraph
