import CallWeight.Analysis
import CallWeight.Text.Split

/-! # Reports

An analysis as a list of all procedures, as a table of the hottest ones, or as a document. In the
first two, procedures whose signature holds a marker can be highlighted for a terminal.
-/

namespace CallWeight.Report

/-- Terminal attributes around a line: their codes, innermost last. -/
def styled (codes : List Nat) (line : Text) : Text :=
  String.join (codes.map fun code => s!"\x1b[{code}m") ++ line ++ "\x1b[0m"

def bold : Text → Text := styled [1]

/-- White on red. -/
def alarming : Text → Text := styled [1, 41, 97]

def red : Text → Text := styled [1, 31]

/-- Whether a signature holds one of the markers. Those after the first one that it holds are not
    looked at. -/
def isHot (signature : Text) : List Json → Except Fault Bool
  | [] => .ok false
  | .text marker :: rest =>
      if Text.occursIn marker signature then .ok true else isHot signature rest
  | value :: _ => .error (.textExpected value.kindName)

/-- How reports show hot procedures. -/
structure Style where
  color : Bool := true
  /-- A list of texts, which is looked at only if there is something to highlight. -/
  markers : Json := .arr []

/-- The style that highlights procedures with the given markers. -/
def Style.ofMarkers (color : Bool) (markers : List Text) : Style :=
  { color, markers := .arr (markers.map .text) }

/-- Highlight a line about a hot procedure. -/
def Style.highlight (style : Style) (mark : Text → Text) (signature line : Text) :
    Except Fault Text := do
  if style.color then
    return if ← isHot signature (← style.markers.items) then mark line else line
  else return line

def costLine (heading signature : Text) (r : CostRecord) : Except Fault Text := do
  return heading ++ ": " ++ signature ++ " :: " ++ (← r.text)

/-- Every propagated procedure, then every procedure that was only counted. -/
def costMap (a : Analysis) (style : Style) : Except Fault Text := do
  let propagated ← a.store.propagated.entries.mapM fun (signature, r) => do
    style.highlight alarming signature (← costLine "Method" signature r)
  let others ← a.store.unpropagated.mapM fun (signature, r) =>
    costLine "Method not propagated" signature r
  return Text.join "\n" (propagated ++ (if others.isEmpty then [] else [] :: others))

def tableLine (width : Nat) (rank approx static procedure : Text) : Text :=
  Text.padLeft 4 rank ++ "  " ++ Text.padLeft width approx ++ "  " ++ Text.padLeft 6 static
    ++ "  " ++ procedure

/-- The rows of a ranking as a table. -/
def table (style : Style) (rows : List (Text × CostRecord)) : Except Fault Text := do
  rows.forM fun (_, r) => requireWritableCounter r.approx
  let width := rows.foldl (fun width (_, r) => max width (toString r.approx).length) 6
  let header := tableLine width "rank" "approx" "static" "procedure"
  let lines ← rows.zipIdx.mapM fun ((signature, r), position) => do
    requireWritableCounter r.static
    style.highlight red signature
      (tableLine width (toString (position + 1)) (toString r.approx) (toString r.static) signature)
  return Text.join "\n" ((if style.color then bold header else header) :: lines)

/-- The hottest procedures as a table. -/
def rankingTable (a : Analysis) (top : Option Int) (style : Style) : Except Fault Text :=
  match a.ranking top with
  | [] => .ok "No procedures were propagated."
  | rows => table style rows

def procedureEntry (a : Analysis) (item : Text × CostRecord) : Except Fault Json := do
  let (signature, r) := item
  r.requireWritable
  let localCost ← (a.store.locals.get? signature).mapM CostRecord.toJson
  return .obj [
    ("signature", .text signature),
    ("static_invocations", .int r.static),
    ("approx_dynamic_invocations", .int r.approx),
    ("local", localCost.getD .null)]

def edgeEntry (e : CallEdge) : Json :=
  .obj [
    ("source", .text e.source.signature),
    ("target", .text e.target.signature),
    ("kind", .text e.kind.name),
    ("statement", e.index)]

/-- Summary, ranking, added edges and issues as a document. -/
def document (a : Analysis) (top : Option Int) : Except Fault String := do
  let procedures ← (a.ranking top).mapM (procedureEntry a)
  return (Json.obj [
    ("summary", a.summary),
    ("procedures", .arr procedures),
    ("synthetic_edges", .arr (a.synthetic.map edgeEntry)),
    ("issues", .arr (a.issues.map Issue.toJson))]).writeIndented 0

end CallWeight.Report
