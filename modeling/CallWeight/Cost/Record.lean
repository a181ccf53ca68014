import CallWeight.Program.Procedure

/-! # Cost records

The cost of a procedure is a pair of counters: how many call sites it has, and how many calls are
estimated to run. A call inside `d` nested loops counts ten to the power of `d`. Folding in a callee
adds its call sites as they are and its estimated calls times the weight of the calling statement.
-/

namespace CallWeight

/-- One order of magnitude more executions per level of loop nesting. -/
def weightBase : Nat := 10

/-- The estimated number of executions of a statement at a loop depth. -/
def loopWeight (depth : Nat) : Nat := Nat.pow weightBase depth

/-- The weight of a depth that may be below zero, where there is none. -/
def loopWeightOf (depth : Int) : Except Fault Nat :=
  if depth < 0 then .error (.negativeDepth (.int depth)) else .ok (loopWeight depth.toNat)

/-- A counter can be written unless it has too many digits. -/
def requireWritableCounter (n : Int) : Except Fault Unit :=
  if Text.isWritable n then .ok () else .error .unwritableInteger

/-- The text of a weight. -/
def loopWeightText (depth : Int) : Except Fault String := do
  let weight ← loopWeightOf depth
  requireWritableCounter weight
  return toString weight

structure CostRecord where
  /-- The signature of the procedure that the record is about. -/
  procedure : Option Text := none
  /-- The number of call sites. -/
  static : Int := 0
  /-- The estimated number of calls. -/
  approx : Int := 0
  deriving Repr, DecidableEq, Inhabited

namespace CostRecord

/-- Count one call at a loop depth. -/
def countCall (r : CostRecord) (depth : Nat) : CostRecord :=
  { r with static := r.static + 1, approx := r.approx + loopWeight depth }

/-- Fold in the record of a callee that is called with the given weight. -/
def addWeighted (r callee : CostRecord) (weight : Nat) : CostRecord :=
  { r with static := r.static + callee.static, approx := r.approx + callee.approx * weight }

/-- Fold in the record of a callee that is called at a loop depth. -/
def absorb (r callee : CostRecord) (depth : Nat) : CostRecord :=
  r.addWeighted callee (loopWeight depth)

/-- Whether both counters have few enough digits to be written. -/
def isWritable (r : CostRecord) : Bool := Text.isWritable r.static && Text.isWritable r.approx

def requireWritable (r : CostRecord) : Except Fault Unit :=
  if r.isWritable then .ok () else .error .unwritableInteger

/-- Both counters. -/
def text (r : CostRecord) : Except Fault String := do
  r.requireWritable
  return s!"{r.static} | {r.approx}"

/-- The record in short. -/
def summary (r : CostRecord) : Except Fault Text := do
  r.requireWritable
  return "Features(" ++ r.procedure.getD "<none>"
    ++ s!", static={r.static}, approx={r.approx})"

def toJson (r : CostRecord) : Except Fault Json := do
  r.requireWritable
  return .obj [
    ("procedure", Json.ofOption .text r.procedure),
    ("static_invocations", .int r.static),
    ("approx_dynamic_invocations", .int r.approx)]

end CostRecord

end CallWeight
