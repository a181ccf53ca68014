import CallWeight.Loop.Basic
import CallWeight.Loop.Flow

/-! # Natural loops

A step to a statement that dominates the one it comes from closes a loop. Its natural loop is the
target, called the header, together with every statement from which the source is reached without
passing the header. Loops with the same header are one loop.
-/

namespace CallWeight.Flow

variable {α : Type} [DecidableEq α]

/-- The steps back to a dominator, as pairs of source and header. -/
def backEdges (flow : Flow α) (table : DominatorTable α) : List (α × α) :=
  flow.nodes.flatMap fun source =>
    ((flow.next source).filter (table.of source).contains).map fun header => (source, header)

/-- Walk backwards from the statements on the stack through statements not seen yet, and list what
    is met. -/
def gather (flow : Flow α) (unseen : List α) : List α → List α
  | [] => []
  | node :: stack =>
      if node ∈ unseen then
        node :: gather flow (unseen.erase node) (flow.predecessors node ++ stack)
      else gather flow unseen stack
termination_by stack => (unseen.length, stack.length)
decreasing_by
  · rename_i unmet
    apply Prod.Lex.left
    have shorter := List.length_erase_of_mem unmet
    have positive := List.length_pos_of_mem unmet
    omega
  · exact Prod.Lex.right _ (Nat.lt_succ_self _)

/-- The loop of a header, given the sources of its back edges. -/
def loopOf (flow : Flow α) (header : α) (sources : List α) : Loop α :=
  .ofMembers header (flow.gather (flow.nodes.eraseDups.filter (· ≠ header)) sources)

/-- The loops of a flow from its entry, by the first appearance of their headers. -/
def naturalLoopsFrom (flow : Flow α) (entry : α) : List (Loop α) :=
  let edges := flow.backEdges (flow.dominators entry)
  (edges.map (·.2)).eraseDups.map fun header =>
    flow.loopOf header ((edges.filter (·.2 = header)).map (·.1))

/-- The loops of a flow. Without a given entry the first statement is the entry. -/
def naturalLoops (flow : Flow α) (entry : Option α) : List (Loop α) :=
  match flow.nodes with
  | [] => []
  | first :: _ => flow.naturalLoopsFrom (entry.getD first)

end CallWeight.Flow
