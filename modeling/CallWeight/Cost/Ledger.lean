import CallWeight.Cost.Record
import CallWeight.Json.Order

/-! # Ledgers of cost records

Records under names of one's own choice. A copy is a record of its own; an alias is a second name
for the same record, so what is folded into one shows under both. Names with the same key are one
name, spelled as it was first given.
-/

namespace CallWeight

structure Ledger where
  cells : List CostRecord := []
  /-- The names, each with the position of the record that it stands for. -/
  names : List (Atom × Nat) := []
  deriving Repr, Inhabited

namespace Ledger

/-- Let a name stand for a record. A name that is already there keeps its place and spelling. -/
def assign (name : Atom) (cell : Nat) : List (Atom × Nat) → List (Atom × Nat)
  | [] => [(name, cell)]
  | (other, old) :: rest =>
      if other.sameKey name then (other, cell) :: rest else (other, old) :: assign name cell rest

/-- The position of a named record. -/
def cellOf (ledger : Ledger) (name : Atom) : Except Fault Nat :=
  match ledger.names.find? fun (other, _) => other.sameKey name with
  | some (_, cell) => .ok cell
  | none => .error (.unknownName name.display)

def record (ledger : Ledger) (name : Atom) : Except Fault CostRecord := do
  return (ledger.cells[← ledger.cellOf name]?).getD {}

/-- Put a record of its own under a name. -/
def insert (ledger : Ledger) (name : Atom) (r : CostRecord) : Ledger :=
  { cells := ledger.cells ++ [r], names := assign name ledger.cells.length ledger.names }

def copy (ledger : Ledger) (name source : Atom) : Except Fault Ledger := do
  return ledger.insert name (← ledger.record source)

/-- Give a record a second name. -/
def share (ledger : Ledger) (name source : Atom) : Except Fault Ledger := do
  return { ledger with names := assign name (← ledger.cellOf source) ledger.names }

/-- Fold one record into another. The depth matters only if both are there. -/
def fold (ledger : Ledger) (name callee depth : Json) : Except Fault Ledger := do
  let name ← name.asKey
  let cell ← ledger.cellOf name
  let r ← ledger.record name
  let folded ← ledger.record (← callee.asKey)
  let weight ← loopWeightOf (← depth.asDepth)
  return { ledger with cells := ledger.cells.set cell (r.addWeighted folded weight) }

/-- The records in the order of their names. -/
def records (ledger : Ledger) : Except Fault (List (Atom × CostRecord)) := do
  return (← Atom.sortBy (·.1) ledger.names).map fun (name, cell) =>
    (name, (ledger.cells[cell]?).getD {})

end Ledger

end CallWeight
