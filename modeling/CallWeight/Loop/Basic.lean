/-! # Loops and loop nests

A loop is a header and a set of statements that contains it. The loops of one body form a nest:
kept once per set of statements and ordered from small to large, so that whatever encloses a loop
comes after it. The depth of a statement is the level of the deepest loop around it.
-/

namespace CallWeight

/-- A loop over statements named by `α`. The members contain the header and repeat nothing. -/
structure Loop (α : Type) where
  header : α
  members : List α
  deriving Repr

namespace Loop

variable {α : Type} [DecidableEq α]

/-- The loop with the given header and further members. -/
def ofMembers (header : α) (members : List α) : Loop α :=
  { header, members := (header :: members).eraseDups }

def size (loop : Loop α) : Nat := loop.members.length

def contains (loop : Loop α) (statement : α) : Bool := loop.members.contains statement

/-- Whether every member of a loop belongs to another one. -/
def within (inner outer : Loop α) : Bool := inner.members.all outer.contains

/-- Whether two loops have the same members. -/
def sameMembers (a b : Loop α) : Bool := a.size = b.size && a.within b && b.within a

/-- Whether a loop strictly contains another one. -/
def encloses (outer inner : Loop α) : Bool := inner.within outer && !outer.within inner

/-- The loop in short, its header already written out. -/
def summary (header : String) (loop : Loop α) : String :=
  s!"Loop(header={header}, size={loop.size})"

end Loop

/-- The loops of one body, each set of statements once, smaller loops first. -/
structure LoopNest (α : Type) where
  loops : List (Loop α) := []
  deriving Repr, Inhabited

namespace LoopNest

variable {α : Type} [DecidableEq α]

/-- Keep the first loop of each set of statements. -/
def distinct (loops : List (Loop α)) : List (Loop α) :=
  loops.foldl (fun kept loop => if kept.any loop.sameMembers then kept else kept ++ [loop]) []

def ofLoops (loops : List (Loop α)) : LoopNest α :=
  { loops := (distinct loops).mergeSort fun a b => a.size ≤ b.size }

/-- The smallest loop that strictly encloses the given one. -/
def higher? (nest : LoopNest α) (loop : Loop α) : Option (Loop α) :=
  nest.loops.find? fun candidate => candidate.size > loop.size && candidate.encloses loop

/-- The loops of an ascending list, each with its level: one for an outermost loop, otherwise one more
    than the first loop that encloses it. -/
def withLevels : List (Loop α) → List (Loop α × Nat)
  | [] => []
  | loop :: rest =>
      let outer := withLevels rest
      let above := (outer.find? fun (candidate, _) => candidate.encloses loop).map (·.2)
      (loop, above.getD 0 + 1) :: outer

/-- Every loop of the nest with its level. -/
def levels (nest : LoopNest α) : List (Loop α × Nat) := withLevels nest.loops

/-- The greatest level among those loops that contain a statement, 0 if none does. -/
def deepest (levels : List (Loop α × Nat)) (statement : α) : Nat :=
  levels.foldl
    (fun depth (loop, level) => if loop.contains statement then max depth level else depth) 0

/-- The depth of a statement: the level of the deepest loop around it. -/
def depthOf (nest : LoopNest α) (statement : α) : Nat := deepest nest.levels statement

/-- Every statement inside a loop, with its depth. -/
def depths (nest : LoopNest α) : List (α × Nat) :=
  let levels := nest.levels
  (nest.loops.flatMap (·.members)).eraseDups.map fun statement =>
    (statement, deepest levels statement)

def summary (nest : LoopNest α) : String := s!"LoopNestTree({nest.loops.length} loops)"

end LoopNest

end CallWeight
