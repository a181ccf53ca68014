import CallWeight.CommandLine.Run
import CallWeight.Proofs.BatchRuns
import CallWeight.Proofs.DeclaredEdges
import CallWeight.Proofs.DocumentTypes

/-! # What a run tells about malformed input

A run refuses input that it finds to be malformed, tells why in its log and ends with exit code 2.
It does not find everything: a value of the wrong kind in an unchecked slot ends it with a fault,
while the files are read or later, when the call graph is built from the targets. Three more things
can go wrong. The words may ask for what cannot be had, a counter may have too many digits to be
written, and the standard output may have no bytes for a code point of the report, as UTF-8 has none
for a surrogate. Nothing else escapes.
-/

namespace CallWeight

/-! ## Building the call graph -/

theorem Program.judged_procedure (typed : Prop) (program : Program) (signature : Text) :
    Judged (Fault.Due Fault.isFormat typed) (fun _ => True) (program.procedure signature) := by
  unfold Program.procedure
  split
  · exact .ok trivial
  · have phantom : Judged (Fault.Due Fault.isFormat typed) (fun _ => True)
        (Procedure.phantom signature) :=
      (Description.judged_split signature).bind fun parts _ => .ok trivial
    exact phantom.bind fun p _ => .ok trivial

section Building

variable {α : Type} {typed : Prop} {excused : Fault → Prop} {post : α → Prop} {start : Inspection}

namespace Inspecting

theorem Neutral.meets {x : Inspecting α} (neutral : x.Neutral)
    (judged : ∀ i, start.Alike i → Judged excused post (x.attempt i).1) :
    Meets start.Alike excused post x := by
  intro i alike
  have kept := alike.trans (neutral i)
  have result := judged i alike
  unfold attempt at kept result
  cases returned : x i with
  | ok a j =>
      rw [returned] at kept result
      exact ⟨result.of_ok rfl, kept⟩
  | error fault j =>
      rw [returned] at result
      exact result.of_error rfl

theorem meets_ask {question : Inspection → Except Fault α}
    (judged : ∀ i, start.Alike i → Judged excused post (question i)) :
    Meets start.Alike excused post (ask question) := by
  refine (quiet_ask question).neutral.meets fun i alike => ?_
  rw [attempt_ask]
  exact judged i alike

/-- Whether an inspection with the same answers as a given one gives what is expected or fails in a
    way that is due. -/
abbrev Inspects {α : Type} (start : Inspection) (typed : Prop) (post : α → Prop)
    (x : Inspecting α) : Prop :=
  Meets start.Alike (Fault.Due Fault.isFormat typed) post x

variable (answers : start.failures = [])

include answers

theorem meets_procedure {name : Json} (isTyped : typed → name.isText = true) :
    Inspects start typed (fun _ => True) (procedure name) := by
  have isKey (holds : typed) := Json.isKey_of_isText (isTyped holds)
  rw [procedure_eq]
  refine (Meets.ofExcept (Json.judged_asKey isKey)).bind fun key _ => ?_
  have asked : Inspects start typed (fun _ => True)
      (ask fun i => i.answer .procedure key (.ok ())) := by
    refine meets_ask fun i alike => ?_
    rw [Inspection.answer_of_noFailures (alike.failures.trans answers)]
    exact .ok trivial
  refine asked.bind fun _ _ => ?_
  refine (Meets.ofExcept (Json.judged_asKey isKey)).bind fun _ _ => ?_
  refine (Meets.ofExcept (Json.judged_asText _ isTyped)).bind fun signature _ => ?_
  refine (steady_declared signature).quiet.neutral.meets fun i alike => ?_
  rw [attempt_declared]
  cases found : i.program.procedure signature with
  | ok result => exact .ok trivial
  | error fault => exact .error ((i.program.judged_procedure typed signature).of_error found)

end Inspecting

open Inspecting

namespace CallGraph

variable (answers : start.failures = [])

include answers

theorem meets_addTargets (p : Procedure) (site : Site) (s : Statement) (kind : EdgeKind)
    (g : CallGraph) {names : List Json} (isTyped : typed → ∀ name ∈ names, name.isText = true) :
    Inspects start typed (fun _ => True) (addTargets p site s kind g names) := by
  induction names generalizing g with
  | nil => exact .pure trivial
  | cons name rest ih =>
      have both (holds : typed) := List.forall_mem_cons.mp (isTyped holds)
      refine (meets_procedure answers fun holds => (both holds).1).bind fun target _ => ?_
      exact ih _ fun holds => (both holds).2

theorem meets_addProcedure (g : CallGraph) {p : Procedure}
    (isTyped : typed → Description.TargetsFit Json.isText p.body) :
    Inspects start typed (fun _ => True) (addProcedure g p) := by
  have asked : Inspects start typed (fun body => body = p.body) (ask (·.body p)) := by
    refine meets_ask fun i alike => ?_
    unfold Inspection.body
    rw [Inspection.answer_of_noFailures (alike.failures.trans answers)]
    exact .ok rfl
  refine asked.bind fun body isBody => ?_
  cases body with
  | none => exact .pure trivial
  | some body =>
      refine Meets.foldlM (fun g _ placed listed => ?_) trivial
      obtain ⟨⟨s, position⟩, isStatement, rfl⟩ := List.mem_map.mp listed
      refine meets_addTargets answers p _ s _ g fun holds name isTarget => ?_
      have listed := List.fst_mem_of_mem_zipIdx isStatement
      exact (isTyped holds body isBody.symm s listed name isTarget).elim id id

theorem meets_build {config : Config}
    (fits : Description.ProgramFits config typed Json.isText start.program) :
    Inspects start typed (fun _ => True) build := by
  have named : start.program.Named := fun c isClass => (fits.classes c isClass).name
  have required : Inspects start typed (fun _ => True) requireNames := by
    refine meets_ask fun i alike => ?_
    rw [Program.requireNames_of_named (alike.program.named named)]
    exact .ok trivial
  have added : ∀ p ∈ start.program.applicationProcedures, ∀ g,
      Inspects start typed (fun _ => True) (addProcedure g p) := by
    intro p listed g
    refine meets_addProcedure answers g fun holds => ?_
    obtain ⟨c, isApplication, isMethod⟩ := List.mem_flatMap.mp listed
    exact (fits.classes c (List.mem_filter.mp isApplication).1).targets holds p isMethod
  refine required.bind fun _ _ => Meets.seeing fun seen alike => ?_
  rw [alike.program.applicationProcedures]
  refine (Meets.foldlM (fun g _ p listed => added p listed g) trivial).bind fun g _ => ?_
  exact (Meets.modify fun i alike => alike.trans (.of_eq rfl rfl)).bind fun _ _ => .pure trivial

end CallGraph

/-! ## Analysing -/

namespace Analysis

theorem judged_ofGraph {config : Config}
    (fits : Description.ProgramFits config typed Json.isText start.program)
    (answers : start.failures = []) (entry : typed → config.entrySubsignature.isText = true)
    (rules : List DispatchRule) (g : CallGraph) {i : Inspection} (alike : start.Alike i) :
    Judged (Fault.Due Fault.isFormat typed) (fun _ => True) (outcomeOf (ofGraph rules g i)) := by
  have sameConfig : i.program.config = config := alike.program.config.trans fits.config
  cases warned : config.warnings with
  | error fault =>
      have due : Judged (Fault.Due Fault.isFormat typed) (fun _ => True) config.warnings :=
        (Json.judged_asText _ entry).bind fun _ _ => .ok trivial
      have failed : warn i.program.config i = .error fault i := by
        refine bind_of_error ?_
        rw [sameConfig, warned]
        rfl
      have started : (get : Inspecting Inspection) i = .ok i i := rfl
      have stopped : ofGraph rules g i = .error fault i :=
        (bind_of_ok started).trans (bind_of_error failed)
      rw [stopped]
      exact .error (due.of_error warned)
  | ok warnings =>
      have isText : ∃ subsignature, i.program.config.entrySubsignature = .text subsignature :=
        sameConfig ▸ entry_of_warned warned
      rcases ofGraph_cases rules g isText with
        ⟨a, after, returned, -⟩ | ⟨fault, after, failed, p, listed, refused⟩
      · rw [returned]
        exact .ok trivial
      · -- Every application procedure is known to be application code, so counting does not stop.
        have named : i.program.Named :=
          alike.program.named fun c isClass => (fits.classes c isClass).name
        have owned : ∀ c ∈ i.program.classes.values, c.OwnsMethods := by
          rw [alike.program.classes]
          exact fun c isClass => (fits.classes c isClass).owned
        obtain ⟨answer, answered⟩ := isApplication_of_declared named owned listed
        rw [answered, Inspection.answer_of_noFailures (alike.failures.trans answers)] at refused
        cases refused

theorem judged_ofProgram {config : Config}
    (fits : Description.ProgramFits config typed Json.isText start.program)
    (answers : start.failures = []) (entry : typed → config.entrySubsignature.isText = true) :
    Judged (Fault.Due Fault.isFormat typed) (fun _ => True) (outcomeOf (ofProgram start)) := by
  have result := CallGraph.meets_build answers fits start (.refl _)
  cases built : CallGraph.build start with
  | ok g i =>
      rw [built] at result
      unfold ofProgram
      rw [bind_of_ok built]
      exact judged_ofGraph fits answers entry _ g result.2
  | error fault i =>
      rw [built] at result
      unfold ofProgram
      rw [bind_of_error built]
      exact .error result

end Analysis

end Building

/-! ## Reports -/

namespace Analysis

/-- The records that reports tell about. -/
def records (a : Analysis) : List CostRecord := a.store.propagated.values ++ a.store.locals.values

/-- Whether a counter of an analysis has too many digits to be written. -/
def Oversized (a : Analysis) : Prop := ∃ r ∈ a.records, r.isWritable = false

end Analysis

namespace Report

variable {a : Analysis}

/-- The only fault of a report is that of a counter with too many digits. -/
abbrev Writes {α : Type} (a : Analysis) (x : Except Fault α) : Prop :=
  Judged (fun fault => fault = .unwritableInteger ∧ a.Oversized) (fun _ => True) x

theorem Writes.bind {α β : Type} {x : Except Fault α} {f : α → Except Fault β} (first : Writes a x)
    (second : ∀ value, Writes a (f value)) : Writes a (x >>= f) :=
  Judged.bind first fun value _ => second value

theorem Writes.mapM {α β : Type} {items : List α} {f : α → Except Fault β}
    (each : ∀ item ∈ items, Writes a (f item)) : Writes a (items.mapM f) :=
  (Judged.mapM each).imp fun _ _ => trivial

theorem writes_pure {α : Type} (value : α) : Writes a (pure value) := .ok trivial

theorem writes_requireWritable {r : CostRecord} (listed : r ∈ a.records) :
    Writes a r.requireWritable := by
  unfold CostRecord.requireWritable
  cases isWritable : r.isWritable with
  | true => exact .ok trivial
  | false => exact .error ⟨rfl, r, listed, isWritable⟩

theorem writes_counter {r : CostRecord} (listed : r ∈ a.records) {n : Int}
    (isCounter : n = r.static ∨ n = r.approx) : Writes a (requireWritableCounter n) := by
  unfold requireWritableCounter
  cases isWritable : Text.isWritable n with
  | true => exact .ok trivial
  | false =>
      refine .error ⟨rfl, r, listed, ?_⟩
      unfold CostRecord.isWritable
      rcases isCounter with rfl | rfl
      · rw [isWritable, Bool.false_and]
      · rw [isWritable, Bool.and_false]

theorem mem_records_of_ranking {top : Option Int} {item : Text × CostRecord}
    (ranked : item ∈ a.ranking top) : item.2 ∈ a.records := by
  have listed : item ∈ a.store.propagated.entries := by
    unfold Analysis.ranking at ranked
    cases top with
    | none => exact List.mem_mergeSort.mp ranked
    | some stop => exact List.mem_mergeSort.mp (List.mem_of_mem_take ranked)
  exact List.mem_append_left _ (List.mem_map.mpr ⟨item, listed, rfl⟩)

theorem writes_highlight (color : Bool) (markers : List Text) (mark : Text → Text)
    (signature line : Text) :
    Writes a ((Style.ofMarkers color markers).highlight mark signature line) := by
  have hot : ∃ answer, isHot signature (markers.map .text) = .ok answer := by
    induction markers with
    | nil => exact ⟨false, rfl⟩
    | cons marker rest ih =>
        simp only [List.map_cons, isHot]
        split
        · exact ⟨true, rfl⟩
        · exact ih
  obtain ⟨answer, hot⟩ := hot
  cases color with
  | false => exact writes_pure _
  | true =>
      unfold Style.highlight
      simp only [Style.ofMarkers, if_true]
      change Writes a (isHot signature (markers.map .text) >>= _)
      rw [hot]
      exact writes_pure _

theorem writes_costLine (heading signature : Text) {r : CostRecord} (listed : r ∈ a.records) :
    Writes a (costLine heading signature r) := by
  unfold costLine CostRecord.text
  exact ((writes_requireWritable listed).bind fun _ => writes_pure _).bind fun _ => writes_pure _

theorem writes_costMap (color : Bool) (markers : List Text) :
    Writes a (costMap a (Style.ofMarkers color markers)) := by
  unfold costMap
  refine (Writes.mapM fun entry listed => ?_).bind fun lines => ?_
  · have isRecord : entry.2 ∈ a.records := List.mem_append_left _ (List.mem_map_of_mem listed)
    exact (writes_costLine _ _ isRecord).bind fun _ => writes_highlight color markers _ _ _
  refine (Writes.mapM fun entry listed => ?_).bind fun others => writes_pure _
  have isRecord : entry.2 ∈ a.records :=
    List.mem_append_right _ (List.mem_map_of_mem (List.mem_of_mem_filter listed))
  exact writes_costLine _ _ isRecord

theorem writes_table (color : Bool) (markers : List Text) {rows : List (Text × CostRecord)}
    (ranked : ∀ item ∈ rows, item.2 ∈ a.records) :
    Writes a (table (Style.ofMarkers color markers) rows) := by
  have approximations : Writes a (rows.forM fun item => requireWritableCounter item.2.approx) :=
    .forM fun item listed => writes_counter (ranked item listed) (.inr rfl)
  unfold table
  refine approximations.bind fun _ => ?_
  refine (Writes.mapM fun row listed => ?_).bind fun lines => writes_pure _
  have isRow := ranked _ (List.fst_mem_of_mem_zipIdx listed)
  exact (writes_counter isRow (.inl rfl)).bind fun _ => writes_highlight color markers _ _ _

theorem writes_rankingTable (top : Option Int) (color : Bool) (markers : List Text) :
    Writes a (rankingTable a top (Style.ofMarkers color markers)) := by
  unfold rankingTable
  split
  · exact writes_pure _
  · exact writes_table color markers fun item => mem_records_of_ranking

theorem writes_procedureEntry {top : Option Int} {item : Text × CostRecord}
    (ranked : item ∈ a.ranking top) : Writes a (procedureEntry a item) := by
  have ofLocal : Writes a ((a.store.locals.get? item.1).mapM CostRecord.toJson) := by
    cases held : a.store.locals.get? item.1 with
    | none => exact writes_pure _
    | some r =>
        have listed : r ∈ a.records := List.mem_append_right _ (OrderedMap.mem_values_of_get? held)
        have written : Writes a r.toJson := by
          unfold CostRecord.toJson
          exact (writes_requireWritable listed).bind fun _ => writes_pure _
        rw [Option.mapM_some]
        exact written.map
  unfold procedureEntry
  refine (writes_requireWritable (mem_records_of_ranking ranked)).bind fun _ => ?_
  exact ofLocal.bind fun _ => writes_pure _

theorem writes_document (top : Option Int) : Writes a (document a top) := by
  unfold document
  exact (Writes.mapM fun item ranked => writes_procedureEntry ranked).bind fun _ => writes_pure _

end Report

/-! ## Requests -/

/-- The faults of words that ask for what cannot be had. -/
def Fault.isUsage : Fault → Bool
  | .valueDropped _ | .textExpected _ => true
  | .notEncodable | .nullInPath | .noHome | .pathTooDeep => true
  | _ => false

namespace CommandLine

/-- What a task needs of a configuration document. Only an analysis looks at the entry method, and it
    takes it for a text. -/
def Task.configFits : Task → Json → Bool
  | .callGraph, document => Config.documentFits document
  | .analyze, document =>
      Config.documentFits document && document.fieldFits "entry_subsignature" Json.isText

namespace Request

/-- Whether a request only reads files whose paths can be used, prints its report, and had no value
    dropped. -/
structure Plain (request : Request) : Prop where
  program : PathName.requireUsable (PathName.ofText request.program).text = .ok ()
  config : ∀ name ∈ request.config, PathName.requireUsable (PathName.ofText name).text = .ok ()
  excludes : none ∉ request.excludes
  top : request.top ≠ .dropped
  output : request.output = .missing ∨ request.output = .value "-"

/-- Whether the files of a request hold values of the kinds that the task needs. -/
structure InputsFit (tree : FileTree) (request : Request) : Prop where
  program : contentFits (Description.programFits Json.isText)
    (tree.read (PathName.ofText request.program)) = true
  config : ∀ name ∈ request.config,
    contentFits request.task.configFits (tree.read (PathName.ofText name)) = true

/-- Load the program of a request. -/
def load (request : Request) (config : Config) (content : FileContent) :
    Description.Reading Program := fun log =>
  Description.checkedProgramOfFile (request.settle config) (request.requirePrefixes config)
    (PathName.ofText request.program).text content
    (log.info .commandLine ("Loading program: " ++ request.program))

/-- Whether the analysis that a request asks for comes to a counter with too many digits. -/
def Overflows (console : Console) (tree : FileTree) (request : Request) : Prop :=
  request.task = .analyze ∧ ∃ config before program log a i,
    (request.readConfig (FileTree.access console) tree).1 = .ok config before ∧
    request.load config (tree.read (PathName.ofText request.program)) before = .ok program log ∧
    Analysis.ofProgram { program, log } = .ok a i ∧ a.Oversized

/-- Whether the report that a request is to print has a code point that the output has no bytes for. -/
def Unprintable (console : Console) (tree : FileTree) (request : Request) : Prop :=
  (request.output = .missing ∨ request.output = .value "-") ∧ ∃ text log,
    (request.produce (FileTree.access console) tree).1 = .ok text log ∧
    ∃ p ∈ text ++ "\n", console.encodes p = false

/-- The faults that a request may end with, and what each takes. -/
inductive Escapes (console : Console) (tree : FileTree) (request : Request) : Fault → Prop where
  | unchecked {fault : Fault} (kind : fault.isUnchecked = true) (unfit : ¬ request.InputsFit tree) :
      Escapes console tree request fault
  | counter (overflows : request.Overflows console tree) :
      Escapes console tree request .unwritableInteger
  | printing (unprintable : request.Unprintable console tree) :
      Escapes console tree request .notEncodable
  | usage {fault : Fault} (kind : fault.isUsage = true) (unusual : ¬ request.Plain) :
      Escapes console tree request fault

/-- The lines that tell why a request failed. -/
inductive Explains (request : Request) : LogLine → Prop where
  | format (error : FormatError) : Explains request ⟨.error, .commandLine, error.message⟩
  | config (error : ConfigError) : Explains request ⟨.error, .commandLine, error.message⟩
  | writing (error : FileError) (unusual : ¬ request.Plain) :
      Explains request ⟨.error, .commandLine, "I/O error: " ++ error.message⟩

/-- Why the report of a request is not made: something is refused, or a fault escapes. -/
inductive Stops (console : Console) (tree : FileTree) (request : Request) : Fault → Prop where
  | format (error : FormatError) : Stops console tree request (.format error)
  | config (error : ConfigError) : Stops console tree request (.config error)
  | escapes {fault : Fault} (escapes : request.Escapes console tree fault) :
      Stops console tree request fault

variable {console : Console} {tree : FileTree} {request : Request}

theorem stops_of_due {refusal : Fault → Bool}
    (known : refusal = Fault.isFormat ∨ refusal = Fault.isConfig) {fault : Fault}
    (due : Fault.Due refusal (request.InputsFit tree) fault) :
    request.Stops console tree fault := by
  rcases due with isRefusal | ⟨kind, unfit⟩
  · rcases known with rfl | rfl
    · unfold Fault.isFormat at isRefusal
      split at isRefusal
      · exact .format _
      · cases isRefusal
    · unfold Fault.isConfig at isRefusal
      split at isRefusal
      · exact .config _
      · cases isRefusal
  · exact .escapes (.unchecked kind unfit)

/-- Whether a result is as expected, or a fault of an unusual request. -/
abbrev Obtains {α : Type} (request : Request) (post : α → Prop) (x : Except Fault α) : Prop :=
  Judged (fun fault => fault.isUsage = true ∧ ¬ request.Plain) post x

theorem obtains_startsPackage (package : Text) {prefixes : List Json}
    (texts : request.Plain → ∀ value ∈ prefixes, value.isText = true) :
    request.Obtains (fun _ => True) (Settings.startsPackage package prefixes) := by
  induction prefixes with
  | nil => exact .ok trivial
  | cons value rest ih =>
      have both (plain : request.Plain) := List.forall_mem_cons.mp (texts plain)
      unfold Settings.startsPackage
      split
      · exact .ok trivial
      · rename_i isList
        cases isList
        split
        · exact .ok trivial
        · exact ih fun plain => (both plain).2
      · rename_i notText isList
        cases isList
        refine .error ⟨rfl, fun plain => ?_⟩
        have isText := (both plain).1
        unfold Json.isText at isText
        split at isText
        · exact notText _ rfl
        · cases isText

theorem obtains_requirePrefixes (request : Request) (config : Config) (className : Text) :
    request.Obtains (fun _ => True) (request.requirePrefixes config className) := by
  have texts : request.Plain → ∀ value ∈ config.libraryPrefixes.map Json.text ++
      request.excludes.map fun exclude => (exclude.map Json.text).getD (.arr []),
      value.isText = true := by
    intro plain value listed
    rcases List.mem_append.mp listed with isPrefix | isExclude
    · obtain ⟨start, -, rfl⟩ := List.mem_map.mp isPrefix
      rfl
    · obtain ⟨exclude, isGiven, rfl⟩ := List.mem_map.mp isExclude
      cases exclude with
      | none => exact (plain.excludes isGiven).elim
      | some start => rfl
  exact (obtains_startsPackage (packageOf className) texts).bind fun _ _ => .ok trivial

theorem obtains_requireUsable {name : Text}
    (usable : request.Plain → PathName.requireUsable name = .ok ()) :
    request.Obtains (fun _ => True) (PathName.requireUsable name) := by
  cases checked : PathName.requireUsable name with
  | ok done => exact .ok trivial
  | error fault =>
      refine .error ⟨?_, fun plain => ?_⟩
      · unfold PathName.requireUsable at checked
        split at checked
        · cases checked
          rfl
        · split at checked
          · cases checked
            rfl
          · cases checked
      · cases (usable plain).symm.trans checked

/-! ## Reading the files -/

/-- A file is read unless its path cannot be used, and the files stay as they are. -/
theorem contentOf_cases {path : PathName}
    (usable : request.Plain → PathName.requireUsable path.text = .ok ()) (tree : FileTree) :
    contentOf (FileTree.access console) path tree = (.ok (tree.read path), tree) ∨
      ∃ fault, contentOf (FileTree.access console) path tree = (.error fault, tree) ∧
        fault.isUsage = true ∧ ¬ request.Plain := by
  unfold contentOf
  cases checked : PathName.requireUsable path.text with
  | ok done => exact .inl rfl
  | error fault => exact .inr ⟨fault, rfl, (obtains_requireUsable usable).of_error checked⟩

/-- Reading a configuration ends with a configuration, with a refusal, or with the fault of a value
    of the wrong kind or of a file that holds none. -/
theorem reads_configOf {typed : Prop} (path : PathName) {content : FileContent}
    {fits : Json → Bool} (isTyped : typed → contentFits fits content)
    (lists : ∀ document, fits document = true → Config.documentFits document = true) :
    Meets (fun _ => True) (Fault.Due Fault.isConfig typed)
      (fun config => typed → ∃ fields, fits (.obj fields) = true ∧ config.entrySubsignature =
        ((Json.obj fields).field? "entry_subsignature").getD (Config.entrySubsignature {}))
      (configOf path content) := by
  unfold configOf
  unfold contentFits at isTyped
  cases found : documentOf content with
  | ok document =>
      simp only [found] at isTyped
      obtain ⟨fields, rfl⟩ := obj_of_documentOf found
      refine (Meets.modify fun _ _ => trivial).bind fun _ _ => .ofExcept ?_
      refine (Config.judged_ofDocument fun holds => lists _ (isTyped holds)).imp ?_
      exact fun config isEntry holds => ⟨fields, isTyped holds, isEntry⟩
  | error fault =>
      cases fault with
      | unreadable error => exact .throw (.inl rfl)
      | notJson => exact .throw (.inl rfl)
      | notObject => exact .throw (.inl rfl)
      | general fault =>
          simp only [found] at isTyped
          exact .throw (.inr ⟨isUnchecked_of_general found, fun holds => nomatch isTyped holds⟩)

theorem documentFits_of_configFits {task : Task} {document : Json}
    (fits : task.configFits document = true) : Config.documentFits document = true := by
  cases task with
  | callGraph => exact fits
  | analyze => exact (Bool.and_eq_true_iff.mp fits).1

/-- The configuration of a request is read or refused, unless a fault escapes. -/
theorem readConfig_access (console : Console) (tree : FileTree) (request : Request) :
    ∃ result, request.readConfig (FileTree.access console) tree = (result, tree) ∧
      Judged (request.Stops console tree)
        (fun config => request.InputsFit tree → request.task = .analyze →
          config.entrySubsignature.isText = true) (outcomeOf result) := by
  unfold readConfig
  cases given : request.config with
  | none => exact ⟨_, rfl, .ok fun _ _ => rfl⟩
  | some name =>
      dsimp only
      rcases contentOf_cases (fun plain => plain.config name given) tree with
        looked | ⟨fault, looked, kind, unusual⟩
      · rw [bind_of_state looked]
        have typed (fit : request.InputsFit tree) := fit.config name given
        have read := (reads_configOf (PathName.ofText name) typed fun _ =>
          documentFits_of_configFits).judged (s := #[]) trivial
        refine ⟨_, rfl, (read.weaken fun _ => stops_of_due (.inr rfl)).imp fun config known => ?_⟩
        intro fit isAnalysis
        obtain ⟨fields, fits, isEntry⟩ := known fit
        rw [isAnalysis] at fits
        have isText := (Bool.and_eq_true_iff.mp fits).2
        rw [isEntry]
        unfold Json.fieldFits at isText
        cases given : (Json.obj fields).field? "entry_subsignature" with
        | none => rfl
        | some value =>
            rw [given] at isText
            exact isText
      · rw [bind_of_state looked]
        exact ⟨_, rfl, .error (.escapes (.usage kind unusual))⟩

/-! ## Making the report -/

theorem obtains_analysisReport (a : Analysis) (markers : List Text) :
    Judged (fun fault => fault = .unwritableInteger ∧ a.Oversized ∨
        fault.isUsage = true ∧ ¬ request.Plain) (fun _ => True)
      (request.analysisReport a markers) := by
  unfold analysisReport
  dsimp only
  split
  · rename_i dropped
    exact .error (.inr ⟨rfl, fun plain => plain.top dropped⟩)
  · exact ((Report.writes_document _).bind fun _ => Report.writes_pure _).weaken fun _ => .inl
  · exact ((Report.writes_document _).bind fun _ => Report.writes_pure _).weaken fun _ => .inl
  · exact (Report.writes_rankingTable _ _ _).weaken fun _ => .inl
  · exact (Report.writes_costMap _ _).weaken fun _ => .inl

/-- What a request comes to once its program is loaded. -/
theorem judged_report {config : Config} {program : Program} {before log : Log}
    (read : (request.readConfig (FileTree.access console) tree).1 = .ok config before)
    (loaded : request.load config (tree.read (PathName.ofText request.program)) before =
      .ok program log)
    (fits : Description.ProgramFits (request.settle config) (request.InputsFit tree) Json.isText
      program)
    (entry : request.InputsFit tree → request.task = .analyze →
      config.entrySubsignature.isText = true) :
    Judged (request.Stops console tree) (fun _ => True) (outcomeOf (request.report { program, log })) := by
  have sameEntry : (request.settle config).entrySubsignature = config.entrySubsignature := by
    unfold settle
    dsimp only
    split <;> rfl
  unfold report
  cases isTask : request.task with
  | analyze =>
      have analysed : Judged (Fault.Due Fault.isFormat (request.InputsFit tree)) (fun _ => True)
          (outcomeOf (Analysis.ofProgram { program, log })) :=
        Analysis.judged_ofProgram fits rfl fun fit => sameEntry ▸ entry fit isTask
      dsimp only
      cases returned : Analysis.ofProgram { program, log } with
      | error fault i =>
          rw [returned] at analysed
          rw [bind_of_error returned]
          exact .error (stops_of_due (.inl rfl) (analysed.of_error rfl))
      | ok a i =>
          have started : (get : Inspecting Inspection) i = .ok i i := rfl
          rw [bind_of_ok returned, bind_of_ok started, outcomeOf_ofExcept]
          refine (obtains_analysisReport a _).weaken fun fault isExcused => .escapes ?_
          rcases isExcused with ⟨rfl, oversized⟩ | ⟨kind, unusual⟩
          · exact .counter
              ⟨isTask, config, before, program, log, a, i, read, loaded, returned, oversized⟩
          · exact .usage kind unusual
  | callGraph =>
      have result := CallGraph.meets_build rfl fits { program, log } (.refl _)
      dsimp only
      cases built : CallGraph.build { program, log } with
      | error fault i =>
          rw [built] at result
          rw [bind_of_error built]
          exact .error (stops_of_due (.inl rfl) result)
      | ok g i =>
          obtain ⟨augmented, added, j, returned, -⟩ := Analysis.augment_alike DispatchRule.all g i
          rw [bind_of_ok built, bind_of_ok returned]
          exact .ok trivial

theorem judged_reportOn {config : Config} {log : Log}
    (read : (request.readConfig (FileTree.access console) tree).1 = .ok config log)
    (entry : request.InputsFit tree → request.task = .analyze →
      config.entrySubsignature.isText = true) :
    Judged (request.Stops console tree) (fun _ => True)
      (outcomeOf (request.reportOn config (tree.read (PathName.ofText request.program)) log)) := by
  have checks (name : Text) : Judged (request.Stops console tree) (fun _ => True)
      (request.requirePrefixes config name) :=
    (obtains_requirePrefixes request config name).weaken fun _ unusual =>
      .escapes (.usage unusual.1 unusual.2)
  have loads := Description.reads_checkedProgramOfFile (fun _ => stops_of_due (.inl rfl)) checks
    (request.settle config) (PathName.ofText request.program).text fun fit => fit.program
  have result := loads (log.info .commandLine ("Loading program: " ++ request.program)) trivial
  unfold reportOn
  dsimp only
  split
  · rename_i failed
    rw [failed] at result
    exact .error result
  · rename_i program after loaded
    rw [loaded] at result
    have reported := judged_report read loaded result.1 entry
    split
    · rename_i failed
      rw [failed] at reported
      exact .error (reported.of_error rfl)
    · exact .ok trivial

theorem judged_produce (console : Console) (tree : FileTree) (request : Request) :
    Judged (request.Stops console tree) (fun _ => True)
      (outcomeOf (request.produce (FileTree.access console) tree).1) := by
  obtain ⟨result, read, judged⟩ := readConfig_access console tree request
  unfold produce
  rw [bind_of_state read]
  cases result with
  | error fault log => exact .error (judged.of_error rfl)
  | ok config log =>
      dsimp only
      rcases contentOf_cases (fun plain : request.Plain => plain.program) tree with
        looked | ⟨fault, looked, kind, unusual⟩
      · rw [bind_of_state looked]
        exact judged_reportOn (by rw [read]) (judged.of_ok rfl)
      · rw [bind_of_state looked]
        exact .error (.escapes (.usage kind unusual))

/-! ## Putting the report where it is asked for -/

/-- How a request ends: with its report, or with a line that tells why there is none. -/
def Settles (request : Request) (ended : Ending × Log) : Prop :=
  (∃ output, ended.1 = .done output) ∨ ended.1 = .failed ∧ ∃ line ∈ ended.2, request.Explains line

theorem settles_error {line : LogLine} (explains : request.Explains line) (log : Log) :
    request.Settles (.failed, log.push line) :=
  .inr ⟨rfl, line, Array.mem_push_self, explains⟩

theorem obtains_save (unusual : ¬ request.Plain) (path : PathName) (text : Text) (log : Log)
    (tree : FileTree) :
    request.Obtains request.Settles (save (FileTree.access console) path text log tree).1 := by
  unfold save
  cases written : (FileTree.access console).write path ((Text.encode? text).getD .empty) tree with
  | mk result after =>
      rw [bind_of_state written]
      cases result with
      | error fault =>
          cases fault with
          | refused error => exact .ok (settles_error (.writing error unusual) log)
          | tooDeep => exact .error ⟨rfl, unusual⟩
      | ok done =>
          dsimp only
          cases Text.encode? text with
          | none => exact .error ⟨rfl, unusual⟩
          | some bytes => exact .ok (.inl ⟨[], rfl⟩)

theorem obtains_destination (unusual : ¬ request.Plain) (path : PathName) (tree : FileTree) :
    request.Obtains (fun _ => True) (destination (FileTree.access console) path tree).1 := by
  have checked (path : PathName) : request.Obtains (fun _ => True)
      ((path.parts.forM PathName.requireUsable).map fun _ => path) := by
    refine Judged.map (Judged.forM fun part _ => ?_)
    exact obtains_requireUsable fun plain => (unusual plain).elim
  unfold destination
  cases path.user? with
  | none => exact checked path
  | some user =>
      have usable : request.Obtains (fun _ => True) (PathName.requireUsable user) :=
        obtains_requireUsable fun plain => (unusual plain).elim
      dsimp only
      cases isUsable : PathName.requireUsable user with
      | error fault => exact .error (usable.of_error isUsable)
      | ok done =>
          dsimp only
          cases found : (FileTree.access console).home user tree with
          | mk home after =>
              rw [bind_of_state found]
              cases home with
              | none => exact .error ⟨rfl, unusual⟩
              | some home => exact checked (path.under home)

/-- A report is printed as a whole, or not at all if the output has no bytes for all of it. -/
theorem judged_print (text : Text) (log : Log) :
    Judged (fun fault => fault = .notEncodable ∧ ∃ p ∈ text, console.encodes p = false)
      request.Settles
      (if console.takes text then .ok (.done text, log) else .error .notEncodable) := by
  split
  · exact .ok (.inl ⟨text, rfl⟩)
  · rename_i refused
    exact .error ⟨rfl, by simpa [Console.takes] using refused⟩

theorem judged_deliver (console : Console) (request : Request) (text : Text) (log : Log)
    (tree : FileTree) :
    Judged (fun fault => fault.isUsage = true ∧ ¬ request.Plain ∨
        (request.output = .missing ∨ request.output = .value "-") ∧ fault = .notEncodable ∧
          ∃ p ∈ text, console.encodes p = false)
      request.Settles (request.deliver (FileTree.access console) text log tree).1 := by
  unfold deliver
  generalize isOutput : request.output = output
  split
  · exact (judged_print text log).weaken fun _ refused => .inr ⟨.inl rfl, refused⟩
  · exact (judged_print text log).weaken fun _ refused => .inr ⟨.inr rfl, refused⟩
  · refine .error (.inl ⟨rfl, fun plain => ?_⟩)
    rcases plain.output with missing | printed
    · cases isOutput.symm.trans missing
    · cases isOutput.symm.trans printed
  · rename_i name isFile
    have unusual : ¬ request.Plain := by
      intro plain
      rcases plain.output with missing | printed
      · cases isOutput.symm.trans missing
      · exact isFile (Given.value.inj (isOutput.symm.trans printed))
    have found : request.Obtains (fun _ => True)
        (destination (FileTree.access console) (PathName.ofText name) tree).1 :=
      obtains_destination unusual (PathName.ofText name) tree
    cases looked : destination (FileTree.access console) (PathName.ofText name) tree with
    | mk result after =>
        rw [looked] at found
        rw [bind_of_state looked]
        cases found with
        | ok _ => exact (obtains_save unusual _ text log after).weaken fun _ => .inl
        | error isExcused => exact .error (.inl isExcused)

/-- A request ends as it should, or with one of the faults that escape. -/
theorem judged_perform (console : Console) (tree : FileTree) (request : Request) :
    Judged (request.Escapes console tree) request.Settles
      (request.perform (FileTree.access console) tree).1 := by
  have produced := judged_produce console tree request
  unfold perform
  cases made : request.produce (FileTree.access console) tree with
  | mk result after =>
      rw [made] at produced
      rw [bind_of_state made]
      split
      · rename_i text log
        refine (judged_deliver console request _ _ after).weaken fun fault isExcused => ?_
        rcases isExcused with ⟨kind, unusual⟩ | ⟨prints, rfl, refused⟩
        · exact .usage kind unusual
        · exact .printing ⟨prints, text, log, by rw [made], refused⟩
      · exact .ok (settles_error (.format _) _)
      · exact .ok (settles_error (.config _) _)
      · rename_i notFormat notConfig
        cases produced with
        | error stops =>
            cases stops with
            | format error => exact (notFormat _ rfl).elim
            | config error => exact (notConfig _ rfl).elim
            | escapes escapes => exact .error escapes

end Request

/-- Lines about errors are always shown. -/
theorem mem_atLeast_of_error {log : Log} {line : LogLine} (logged : line ∈ log)
    (isError : line.level = .error) (level : LogLevel) : line ∈ log.atLeast level := by
  refine List.mem_filter.mpr ⟨Array.mem_toList_iff.mpr logged, ?_⟩
  rw [isError]
  cases level <;> rfl

/-- What a run tells: exit code 0 if its work is done, and otherwise exit code 2 and why. -/
def Request.Tells (request : Request) (outcome : Outcome) : Prop :=
  outcome.ending.exitCode = 0 ∨
    outcome.ending.exitCode = 2 ∧ ∃ line ∈ outcome.log, request.Explains line

theorem judged_run {words : List Text} {request : Request}
    (asked : Request.ofWords words = .ok request) (console : Console) (tree : FileTree) :
    Judged (request.Escapes console tree) request.Tells
      (run (FileTree.access console) words tree).1 := by
  have performed := request.judged_perform console tree
  unfold run
  rw [asked]
  dsimp only
  cases ended : request.perform (FileTree.access console) tree with
  | mk result after =>
      rw [ended] at performed
      rw [bind_of_state ended]
      refine Judged.map (performed.imp fun ended settles => ?_)
      rcases settles with ⟨output, isDone⟩ | ⟨isFailed, line, logged, explains⟩
      · exact .inl (by simp only [isDone]; rfl)
      · have isError : line.level = .error := by cases explains <;> rfl
        have shown := mem_atLeast_of_error logged isError request.logLevel
        exact .inr ⟨by simp only [isFailed]; rfl, line, shown, explains⟩

/-- A report that the standard output cannot encode is not printed, and the run does not tell why. -/
theorem run_of_unprintable {words : List Text} {request : Request}
    (asked : Request.ofWords words = .ok request) {console : Console} {tree : FileTree}
    (unprintable : request.Unprintable console tree) :
    (run (FileTree.access console) words tree).1 = .error .notEncodable := by
  obtain ⟨prints, text, log, produced, p, inside, refused⟩ := unprintable
  have notTaken : console.takes (text ++ "\n") = false :=
    List.all_eq_false.mpr ⟨p, inside, by simp [refused]⟩
  have delivered (tree : FileTree) :
      request.deliver (FileTree.access console) (text ++ "\n") log tree =
        (.error .notEncodable, tree) := by
    unfold Request.deliver
    rcases prints with isOutput | isOutput <;> simp only [isOutput] <;>
      exact congrArg (·, tree) (if_neg (Bool.eq_false_iff.mp notTaken))
  cases made : request.produce (FileTree.access console) tree with
  | mk result after =>
      rw [made] at produced
      cases produced
      have performed : request.perform (FileTree.access console) tree =
          (.error .notEncodable, after) := (bind_of_state made).trans (delivered after)
      unfold run
      rw [asked]
      dsimp only
      rw [bind_of_state performed]
      rfl

/-- A working directory with a program whose only method has a surrogate for its name. -/
def surrogateTree : FileTree where
  root := .directory [
    ("p.json", .file ("\x7b\"classes\":[\x7b\"name\":\"a\",\"methods\":[\x7b"
      ++ "\"subsignature\":\"\\ud800\",\"statements\":[\x7b\"invoke\":\"<a: m>\",\"targets\":[]"
      ++ "\x7d]\x7d]\x7d]\x7d").toUTF8)]
  here := []

set_option maxRecDepth 8000 in
example :
    (outcomeOf (Request.produce (FileTree.access .utf8) { task := .callGraph, program := "p.json" }
      surrogateTree).1).toOption.map (fun text => Console.utf8.takes (text ++ "\n")) = some false := by
  cbv

/-- Malformed input ends the loading of a program or a configuration with a refusal, and a run with
    exit code 2 and the reason in its log, unless a value of the wrong kind stands where none is
    checked. Beside the faults of such values, a run only lets those of an unusual request, of an
    oversized counter and of a report that the standard output cannot encode escape, and it always lets
    the last one escape. -/
theorem faults_escape_only_for_unchecked_input (config : Config) (path : PathName)
    (content : FileContent) (log : Log) (console : Console) (tree : FileTree) {words : List Text}
    {request : Request} (asked : Request.ofWords words = .ok request) :
    ((∃ program after, Description.programOfFile config path.text content log = .ok program after) ∨
      ∃ fault after, Description.programOfFile config path.text content log = .error fault after ∧
        Fault.Due Fault.isFormat (contentFits (Description.programFits fun _ => true) content)
          fault) ∧
    ((∃ config after, Request.configOf path content log = .ok config after) ∨
      ∃ fault after, Request.configOf path content log = .error fault after ∧
        Fault.Due Fault.isConfig (contentFits Config.documentFits content) fault) ∧
    ((∃ outcome, (run (FileTree.access console) words tree).1 = .ok outcome ∧
        request.Tells outcome) ∨
      ∃ fault, (run (FileTree.access console) words tree).1 = .error fault ∧
        request.Escapes console tree fault) ∧
    (request.Unprintable console tree →
      (run (FileTree.access console) words tree).1 = .error .notEncodable) := by
  refine ⟨?_, ?_, (judged_run asked console tree).cases, run_of_unprintable asked⟩
  · have reads := Description.reads_programOfFile (fun _ => true) config path.text content
    refine (reads.cases trivial).imp_left ?_
    rintro ⟨program, after, returned, -⟩
    exact ⟨program, after, returned⟩
  · refine ((Request.reads_configOf path id fun _ => id).cases trivial).imp_left ?_
    rintro ⟨config, after, returned, -⟩
    exact ⟨config, after, returned⟩

/-- A working directory with a program whose only method has no subsignature. -/
def namelessTree : FileTree where
  root := .directory [
    ("p.json", .file "\x7b\"classes\":[\x7b\"name\":\"a.B\",\"methods\":[\x7b\x7d]\x7d]\x7d".toUTF8)]
  here := []

set_option maxRecDepth 4000 in
theorem refused_nameless (config : Config) (check : Text → Except Fault Unit) (log : Log) :
    Description.checkedProgramOfFile config check "p.json"
        (namelessTree.read (PathName.ofText "p.json")) log =
      .error (.format (.methodWithoutSubsignature "a.B")) log := by
  cbv

def namelessRequest : Request := { task := .analyze, program := "p.json" }

theorem plain_nameless : namelessRequest.Plain where
  program := by cbv
  config := nofun
  excludes := by simp [namelessRequest]
  top := by simp [namelessRequest]
  output := .inl rfl

set_option maxRecDepth 4000 in
theorem produce_nameless (console : Console) :
    ∃ log, (namelessRequest.produce (FileTree.access console) namelessTree).1 =
      .error (.format (.methodWithoutSubsignature "a.B")) log :=
  ⟨_, by cbv⟩

set_option maxRecDepth 4000 in
theorem inputsFit_nameless : namelessRequest.InputsFit namelessTree where
  program := by cbv
  config := nofun

theorem faults_escape_only_for_unchecked_input_of_nameless :
    namelessRequest.Plain ∧ namelessRequest.InputsFit namelessTree ∧
      Request.ofWords ["analyze", "p.json"] = .ok namelessRequest ∧
      ∃ outcome, (run (FileTree.access .utf8) ["analyze", "p.json"] namelessTree).1 = .ok outcome ∧
        namelessRequest.Tells outcome := by
  have asked : Request.ofWords ["analyze", "p.json"] = .ok namelessRequest := rfl
  refine ⟨plain_nameless, inputsFit_nameless, asked, ?_⟩
  have tells := faults_escape_only_for_unchecked_input {} (PathName.ofText "p.json")
    (namelessTree.read (PathName.ofText "p.json")) #[] .utf8 namelessTree asked
  rcases tells.2.2.1 with ended | ⟨fault, -, escapes⟩
  · exact ended
  · cases escapes with
    | unchecked kind unfit => exact (unfit inputsFit_nameless).elim
    | counter overflows =>
        obtain ⟨-, config, before, program, after, a, i, -, loaded, -⟩ := overflows
        cases (refused_nameless _ _ _).symm.trans loaded
    | printing unprintable =>
        obtain ⟨-, text, log, produced, -⟩ := unprintable
        obtain ⟨before, refused⟩ := produce_nameless .utf8
        cases refused.symm.trans produced
    | usage kind unusual => exact (unusual plain_nameless).elim

/-- A list is no name of a class, but it is only noticed when the class is filed. -/
theorem unchecked_name_escapes :
    ∃ log, Description.programOfFile {} "p.json"
      (.ok "\x7b\"classes\": [\x7b\"name\": [\"app.A\"]\x7d]\x7d".toUTF8) #[] =
        .error (.notHashable "list") log :=
  ⟨_, by cbv⟩

end CommandLine

end CallWeight
