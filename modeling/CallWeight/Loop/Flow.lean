/-! # Flow between statements and dominance

A flow says for every statement which statements may run next. A statement dominates another one if
every way from the entry to the other passes through it. The dominators are found by elimination:
start from all statements and keep a candidate for `n` only while it is `n` itself or dominates
every predecessor of `n`.
-/

namespace CallWeight

structure Flow (α : Type) where
  /-- The statements of a body, in program order. -/
  nodes : List α
  next : α → List α

/-- For each statement the statements that may still dominate it. -/
abbrev DominatorTable (α : Type) := List (α × List α)

namespace DominatorTable

variable {α : Type} [DecidableEq α]

def of (table : DominatorTable α) (node : α) : List α := (table.lookup node).getD []

/-- The number of candidates left. -/
def weight : DominatorTable α → Nat
  | [] => 0
  | (_, candidates) :: rest => candidates.length + weight rest

/-- Keep only those candidates of a statement that pass a test. -/
def keepAt (table : DominatorTable α) (node : α) (keep : α → Bool) : DominatorTable α :=
  table.map fun (n, candidates) => (n, if n = node then candidates.filter keep else candidates)

end DominatorTable

namespace Flow

variable {α : Type} [DecidableEq α]

/-- The statements of the body from which a statement may be next. -/
def predecessors (flow : Flow α) (node : α) : List α :=
  flow.nodes.filter fun source => (flow.next source).contains node

/-- A step of a depth-first search. -/
inductive SearchStep (α : Type) where
  | enter (node : α)
  | leave (node : α)

/-- Take the steps of a depth-first search and list the statements that are left, the last one
    first. -/
def search (flow : Flow α) (unseen left : List α) : List (SearchStep α) → List α
  | [] => left
  | .leave node :: steps => flow.search unseen (node :: left) steps
  | .enter node :: steps =>
      if node ∈ unseen then
        flow.search (unseen.erase node) left
          ((flow.next node).map .enter ++ .leave node :: steps)
      else flow.search unseen left steps
termination_by steps => (unseen.length, steps.length)
decreasing_by
  · exact Prod.Lex.right _ (Nat.lt_succ_self _)
  · rename_i unmet
    apply Prod.Lex.left
    have shorter := List.length_erase_of_mem unmet
    have positive := List.length_pos_of_mem unmet
    omega
  · exact Prod.Lex.right _ (Nat.lt_succ_self _)

/-- The statements in an order in which most of them come after their predecessors. Any order would
    lead to the same dominators, but in this one few rounds are needed. -/
def searchOrder (flow : Flow α) (entry : α) : List α :=
  let nodes := entry :: flow.nodes
  flow.search nodes.eraseDups [] (nodes.map .enter)

/-- Before any elimination: only the entry dominates the entry, everything dominates the rest. -/
def candidates (flow : Flow α) (entry : α) : DominatorTable α :=
  let nodes := flow.nodes.eraseDups
  (entry, [entry]) :: (nodes.filter (· ≠ entry)).map fun node => (node, nodes)

/-- Whether a candidate survives at a statement, given the candidates of its predecessors. -/
def survives (node : α) (sources : List (List α)) (candidate : α) : Bool :=
  candidate = node || (!sources.isEmpty && sources.all (·.contains candidate))

/-- Drop what does not survive at one statement. -/
def eliminateAt (flow : Flow α) (table : DominatorTable α) (node : α) : DominatorTable α :=
  let sources := (flow.predecessors node).map table.of
  table.keepAt node (survives node sources)

/-- Go once through some statements other than the entry and drop what does not survive. -/
def eliminate (flow : Flow α) (entry : α) (order : List α) (table : DominatorTable α) :
    DominatorTable α :=
  order.foldl (fun table node => if node = entry then table else flow.eliminateAt table node) table

/-- Eliminate until nothing is dropped any more. -/
def settle (flow : Flow α) (entry : α) (order : List α) (table : DominatorTable α) :
    DominatorTable α :=
  let reduced := flow.eliminate entry order table
  if reduced.weight < table.weight then settle flow entry order reduced else reduced
termination_by table.weight

/-- The dominators of every statement. -/
def dominators (flow : Flow α) (entry : α) : DominatorTable α :=
  flow.settle entry (flow.searchOrder entry ++ flow.nodes) (flow.candidates entry)

end Flow

end CallWeight
