import CallWeight.CallGraph.Basic

/-! # Recursion in a call graph

Procedures that call each other, directly or through others, form a component. One depth-first
search finds all components: it numbers the procedures as it meets them, keeps those whose component
is still open on a stack, and notes for each the lowest number it is known to reach among them. A
procedure that reaches no lower number than its own closes its component. Callees are closed before
their callers.
-/

namespace CallWeight.CallGraph

/-- The state of the search. -/
structure Search where
  /-- Signatures not met yet. -/
  unmet : List Text
  /-- The numbers of the signatures met so far. -/
  number : OrderedMap Text Nat := .empty
  /-- The lowest open number that each is known to reach. -/
  lowest : OrderedMap Text Nat := .empty
  /-- Signatures whose component is open, the last one met first. -/
  stack : List Text := []
  /-- The path of the search with the edges not followed yet, its end first. -/
  path : List (Text × List CallEdge) := []
  /-- Closed components, the last one first. -/
  closed : List (List Text) := []

namespace Search

def numberOf (s : Search) (signature : Text) : Nat := (s.number.get? signature).getD 0

def lowestOf (s : Search) (signature : Text) : Nat := (s.lowest.get? signature).getD 0

/-- Note that a signature reaches an open number. -/
def reach (s : Search) (signature : Text) (number : Nat) : Search :=
  { s with lowest := s.lowest.insert signature (min (s.lowestOf signature) number) }

/-- Meet a signature and put it at the end of the path. -/
def meet (s : Search) (g : CallGraph) (signature : Text) : Search :=
  { s with
    unmet := s.unmet.erase signature
    number := s.number.insert signature s.number.size
    lowest := s.lowest.insert signature s.number.size
    stack := signature :: s.stack
    path := (signature, g.edgesFrom signature) :: s.path }

/-- Take a component off the stack: everything down to its first signature. -/
def popTo (signature : Text) : List Text → List Text × List Text
  | [] => ([], [])
  | top :: rest =>
      if top = signature then ([top], rest)
      else
        let (component, others) := popTo signature rest
        (top :: component, others)

/-- Close the component of a signature if it reaches nothing lower than itself. -/
def close (s : Search) (signature : Text) : Search :=
  if s.lowestOf signature = s.numberOf signature then
    let (component, stack) := popTo signature s.stack
    { s with stack, closed := component :: s.closed }
  else s

/-- Tell the caller on the path what a finished callee reaches. -/
def inform (s : Search) (signature : Text) : Search :=
  match s.path with
  | (caller, _) :: _ => s.reach caller (s.lowestOf signature)
  | [] => s

@[simp] theorem unmet_reach (s : Search) (signature : Text) (number : Nat) :
    (s.reach signature number).unmet = s.unmet := rfl

@[simp] theorem path_reach (s : Search) (signature : Text) (number : Nat) :
    (s.reach signature number).path = s.path := rfl

@[simp] theorem unmet_close (s : Search) (signature : Text) :
    (s.close signature).unmet = s.unmet := by
  unfold close
  split <;> rfl

@[simp] theorem path_close (s : Search) (signature : Text) :
    (s.close signature).path = s.path := by
  unfold close
  split <;> rfl

@[simp] theorem unmet_inform (s : Search) (signature : Text) :
    (s.inform signature).unmet = s.unmet := by
  unfold inform
  split <;> rfl

@[simp] theorem path_inform (s : Search) (signature : Text) :
    (s.inform signature).path = s.path := by
  unfold inform
  split <;> rfl

/-- What is left to do on the path. -/
def pathWork : List (Text × List CallEdge) → Nat
  | [] => 0
  | (_, edges) :: rest => edges.length + 1 + pathWork rest

/-- Follow the path until it is empty. -/
def follow (g : CallGraph) (s : Search) : Search :=
  match _path : s.path with
  | [] => s
  | (signature, []) :: rest =>
      follow g (({ s with path := rest }.inform signature).close signature)
  | (signature, e :: edges) :: rest =>
      let target := e.target.signature
      let s' := { s with path := (signature, edges) :: rest }
      if target ∈ s.unmet then follow g (s'.meet g target)
      else if target ∈ s.stack then follow g (s'.reach signature (s.numberOf target))
      else follow g s'
termination_by (s.unmet.length, pathWork s.path)
decreasing_by
  · apply Prod.Lex.right'
    · simp
    · simp [_path, pathWork]
  · rename_i unmet
    apply Prod.Lex.left
    have shorter : (s.unmet.erase e.target.signature).length = s.unmet.length - 1 :=
      List.length_erase_of_mem unmet
    have positive := List.length_pos_of_mem unmet
    simp only [meet]
    omega
  · apply Prod.Lex.right'
    · simp
    · simp [_path, pathWork]
  · apply Prod.Lex.right'
    · simp
    · simp [_path, pathWork]

end Search

/-- The components of a graph, callees before callers. Within a component the signature met last
    comes first. -/
def components (g : CallGraph) : List (List Text) :=
  let start : Search := { unmet := g.nodes.keys }
  let final := g.nodes.keys.foldl (fun s root =>
    if root ∈ s.unmet then Search.follow g (s.meet g root) else s) start
  final.closed.reverse

/-- The components that call themselves: several procedures, or one that calls itself. -/
def cycles (g : CallGraph) : List (List Text) :=
  g.components.filter fun component =>
    match component with
    | [single] => g.isSelfRecursive single
    | _ => true

end CallWeight.CallGraph
