import CallWeight.CallGraph.Summary
import CallWeight.Config.Document
import CallWeight.Program.Description
import CallWeight.Report
import CallWeight.Session.Basic

/-! # Carrying out commands

What each command of a session does. Procedures that a command names are looked up in the order in
which it names them; the kind of a new edge is read before all of them.
-/

namespace CallWeight

namespace Session

/-- The analysis that the session stands for at the moment. -/
def analysis (s : Session) : Analysis :=
  { store := s.store
    graph := s.graph
    issues := s.inspection.issues
    synthetic := s.synthetic
    cycles := s.graph.cycles }

def sortedResolved (s : Session) : List Text := s.resolved.mergeSort (· ≤ ·)

open SessionM

/-- Load a class on its own and add it to the program. -/
def addClass (document : Json) : SessionM Reply := do
  inspect do
    let i ← get
    let load := Description.program i.program.config (.obj [("classes", .arr [document])])
    match load i.log with
    | .error fault log =>
        set { i with log }
        throw fault
    | .ok loaded log =>
        set { i with log }
        let program ← ofExcept (loaded.classes.values.foldlM Program.addClass i.program)
        set { i with log, program }
  return .text (← get).inspection.program.summary

def depths (name : Json) : SessionM Reply := do
  let p ← lookup name
  let depths ← inspect (Inspecting.depthMap p)
  let perStatement := p.body.map fun body =>
    (p.placed body).map fun (site, _) => depths.depthAt site
  return .depths depths.depths.length perStatement

def addEdge (source place target kind : Json) : SessionM Reply := do
  let kind ← ofExcept (EdgeKind.ofValue kind)
  let source ← lookup source
  let (_, site, s) ← statement place
  let target ← lookup target
  let session ← get
  if session.graph.hasEdge site target.signature then return .nothing
  let e : CallEdge := { source, site, index := s.index, target, kind }
  set { session with graph := session.graph.insertEdge e }
  return .newEdge e

/-- The augmenter to run: the one of the session unless there is none or a fresh one is asked
    for. -/
def augmenterFor (fresh : Bool) (config : Option Json) (rules : Option (List DispatchRule)) :
    SessionM Augmenter := do
  let s ← get
  match s.augmenter, fresh with
  | some augmenter, false => return augmenter
  | _, _ =>
      let config ← match config with
        | some document => ofExcept (Config.ofDocument document)
        | none => pure s.inspection.program.config
      return { config, rules := rules.getD DispatchRule.all }

def augment (fresh : Bool) (config : Option Json) (rules : Option (List DispatchRule)) :
    SessionM Reply := do
  let augmenter ← augmenterFor fresh config rules
  modify fun s => { s with augmenter := some augmenter }
  inspect Inspecting.requireNames
  let s ← get
  let a := Augmentation.run augmenter.rules augmenter.config
    { inspection := s.inspection, graph := s.graph, visited := augmenter.visited }
  set { s with
    inspection := a.inspection
    graph := a.graph
    augmenter := some { augmenter with visited := a.visited }
    synthetic := s.synthetic ++ a.added }
  return .edges a.added

/-- What a rule says about a call site. Faults other than those of the input end the command. -/
def judgeBy (context : DispatchRule.Context) (p : Procedure) (site : Site) (s : Statement)
    (rule : DispatchRule) : SessionM (DispatchRule × Judgement) := do
  let g := (← get).graph
  let attempt : Inspecting (Except Fault DispatchRule.Verdict) := fun i =>
    let (verdict, i) := (rule.judge context g p site s).attempt i
    .ok verdict i
  match ← inspect attempt with
  | .ok .pass => return (rule, .pass)
  | .ok (.targets targets) => return (rule, .targets (targets.map (·.signature)))
  | .ok (.unclear failure) => return (rule, .unclear failure)
  | .error (.format error) => return (rule, .refused error)
  | .error fault => throw fault

/-- What every rule says about a call site. The runnable entries are found before the call site. -/
def judge (place : Json) : SessionM Reply := do
  inspect Inspecting.requireNames
  let config := (← get).inspection.program.config
  let entries ← inspect fun i =>
    let (entries, i) := Dispatch.runnableEntriesQuietly config i
    .ok entries i
  let (p, site, s) ← statement place
  return .judgements (← DispatchRule.all.mapM (judgeBy { config, entries } p site s))

def put (name static approx : Json) (isLocal : Bool) : SessionM Reply := do
  let p ← lookup name
  let static ← ofExcept static.asCounter
  let approx ← ofExcept approx.asCounter
  let r : CostRecord := { procedure := some p.signature, static, approx }
  modify fun s => { s with store :=
    if isLocal then s.store.putLocal p.signature r else s.store.put p.signature r }
  return .nothing

/-- Run a propagation from where the session stands. -/
def propagate (go : (g : CallGraph) → Propagation g → Propagation g) : SessionM Unit :=
  modify fun (s : Session) =>
    let start : Propagation s.graph :=
      { costs := { inspection := s.inspection, store := s.store }, resolved := s.resolved }
    let final := go s.graph start
    { s with
      inspection := final.costs.inspection
      store := final.costs.store
      resolved := final.resolved }

/-- Fold the best record of one procedure into that of another. -/
def fold (name callee depth : Json) : SessionM Reply := do
  let p ← lookup name
  let _ ← costing (Costing.cost p)
  let callee ← costing (Costing.cost (← lookup callee))
  let depth ← ofExcept depth.asDepth
  return .cost (← costing (Costing.fold p callee depth))

def extractAll (names : Option Json) : SessionM Reply := do
  let procedures ← match names with
    | some names => (← ofExcept names.items).mapM lookup
    | none => do
        inspect Inspecting.requireNames
        pure (← get).inspection.program.applicationProcedures
  return .count (← costing (Costing.extractAll procedures))

/-- Propagate from scratch. Nothing counts as resolved if the application procedures cannot be
    told. -/
def run : SessionM Reply := do
  modify fun s => { s with resolved := [] }
  inspect Inspecting.requireNames
  propagate fun g s => Propagation.run g s.costs
  let s ← get
  return .propagation s.sortedResolved s.store.propagated.entries

/-- The records of a procedure. Those that are there have to be writable before the best one is
    asked for. -/
def costs (name : Json) : SessionM Reply := do
  let p ← lookup name
  let store := (← get).store
  let localCost := store.locals.get? p.signature
  let propagated := store.propagated.get? p.signature
  localCost.forM fun r => ofExcept r.requireWritable
  propagated.forM fun r => ofExcept r.requireWritable
  return .costs localCost propagated (← costing (Costing.cost p))

def reports (top : Json) (markers : Option Json) (color : Bool) : SessionM Reply := do
  let s ← get
  let a := s.analysis
  let style := match markers with
    | some markers => { color, markers }
    | none => .ofMarkers color s.inspection.program.config.hotMarkers
  let costMap ← ofExcept (Report.costMap a style)
  let top ← ofExcept top.asEnd
  let ranking ← ofExcept (Report.rankingTable a top style)
  return .reports costMap ranking (← ofExcept (Report.document a top))

/-- Carry out a command. -/
def execute : Command → SessionM Reply
  | .addClass document => addClass document
  | .setFailures failures => do
      modify fun s => { s with inspection := { s.inspection with failures } }
      return .nothing
  | .procedure name => do
      let p ← inspect (Inspecting.procedure name)
      return .procedure p (← get).inspection.program.summary
  | .depths name => depths name
  | .entries => do
      inspect Inspecting.requireNames
      let config := (← get).inspection.program.config
      let entries ← inspect fun i =>
        let (entries, i) := Dispatch.runnableEntries config i
        .ok entries i
      return .signatures (entries.map (·.signature))
  | .build => do
      let g ← inspect CallGraph.build
      modify fun s => { s with graph := g, augmenter := none }
      return .edges g.edges
  | .addEdge source place target kind => addEdge source place target kind
  | .edgesOutOf place => do
      let (_, site, _) ← statement place
      return .edges ((← get).graph.edgesOutOf site)
  | .edgesOf name => do
      let p ← lookup name
      let g := (← get).graph
      return .neighbours {
        leaving := g.edgesFrom p.signature
        arriving := g.edgesInto p.signature
        isNode := g.contains p.signature
        isSelfRecursive := g.isSelfRecursive p.signature }
  | .graph => return .graph (← get).graph
  | .syntheticEdges => return .edges (← get).graph.syntheticEdges
  | .augment fresh config rules => augment fresh config rules
  | .judge place => judge place
  | .extract name => do
      let p ← lookup name
      return .record (← inspect (CostRecord.extract p))
  | .extractAll names => extractAll names
  | .cost name => do
      let p ← lookup name
      return .cost (← costing (Costing.cost p))
  | .localCost name => do
      let p ← lookup name
      return .cost (← costing (Costing.localCost p))
  | .put name static approx isLocal => put name static approx isLocal
  | .fold name callee depth => fold name callee depth
  | .lookup name => do
      let p ← lookup name
      let store := (← get).store
      return .entry {
        localCost := store.locals.get? p.signature
        propagated := store.propagated.get? p.signature
        isPropagated := store.isPropagated p.signature
        isKnown := store.contains p.signature }
  | .store => return .store (← get).store
  | .visit name => do
      let p ← lookup name
      propagate fun _ s => s.visit p
      return .signatures (← get).sortedResolved
  | .run => run
  | .isResolved name => do
      let p ← lookup name
      return .flag ((← get).resolved.contains p.signature)
  | .costs name => costs name
  | .ranking top => do
      let top ← ofExcept top.asEnd
      return .items ((← get).analysis.ranking top)
  | .summary => return .summary (← get).analysis.summary
  | .reports top markers color => reports top markers color
  | .line name heading => do
      let p ← lookup name
      let r ← costing (Costing.cost p)
      return .text (← ofExcept (Report.costLine heading p.signature r))
  | .issues => return .issues (← get).inspection.issues

/-- Carry out a command: its reply or its fault, and the session after it. -/
def step (command : Command) (s : Session) : Except Fault Reply × Session :=
  match execute command s with
  | .ok reply s => (.ok reply, s)
  | .error fault s => (.error fault, s)

end Session

end CallWeight
