import CallWeight.CallGraph.Summary
import CallWeight.CommandLine.FileTree
import CallWeight.CommandLine.Request
import CallWeight.Config.Document
import CallWeight.Program.Description
import CallWeight.Report

/-! # Running a command line

A run reads a configuration and a program, does the task that is asked for and writes its report. It
is independent of where the files are and of how the standard output encodes what is printed.
-/

namespace CallWeight.CommandLine

/-- A standard output, by the code points that it has bytes for. -/
structure Console where
  encodes : CodePoint → Bool

namespace Console

/-- An output that is written in UTF-8. -/
def utf8 : Console := ⟨fun p => !p.isSurrogate⟩

/-- An output that is kept in memory as it is. -/
def memory : Console := ⟨fun _ => true⟩

/-- Whether a text can be printed. If one of its code points has no bytes, none of it is printed. -/
def takes (console : Console) (text : Text) : Bool := text.all console.encodes

end Console

/-- Access to files and to the standard output. -/
structure Files (m : Type → Type) where
  read : PathName → m FileContent
  /-- The home directory of a user. One's own is that of the user without a name. -/
  home : Text → m (Option PathName)
  write : PathName → ByteArray → m (Except WriteFault Unit)
  console : Console

/-- How a run ends. -/
inductive Ending where
  /-- The command line asked for no work. -/
  | stopped (stop : Stop)
  /-- The work was done; `output` goes to the standard output. -/
  | done (output : Text)
  /-- The work could not be done. -/
  | failed
  deriving Repr

def Ending.exitCode : Ending → Nat
  | .stopped .help | .stopped .version | .done _ => 0
  | .stopped .refused | .failed => 2

structure Outcome where
  ending : Ending
  /-- The log lines to show. -/
  log : List LogLine := []

/-- The least level of log lines to show. -/
def Request.logLevel (request : Request) : LogLevel :=
  match request.verbosity with
  | 0 => .warning
  | 1 => .info
  | _ => .debug

namespace Request

/-- The configuration of a request, given what its configuration file holds. A prefix that was
    dropped counts as empty. -/
def settle (request : Request) (config : Config) : Config :=
  let excludes := request.excludes.map (·.getD [])
  let config := { config with libraryPrefixes := config.libraryPrefixes ++ excludes }
  if request.augment then config else { config with augmentCallGraph := .bool false }

/-- A prefix that was dropped is at fault as soon as it decides about a class. -/
def requirePrefixes (request : Request) (config : Config) (className : Text) :
    Except Fault Unit := do
  let settings := config.toSettings
  let excludes := request.excludes.map fun exclude => (exclude.map Json.text).getD (.arr [])
  let settings := { settings with
    libraryPrefixes := settings.libraryPrefixes.map (· ++ excludes) }
  let _ ← settings.isLibraryClass (.text className)

/-- The configuration in a file. -/
def configOf (path : PathName) (content : FileContent) : Description.Reading Config := do
  match documentOf content with
  | .error fault => throw (fault.forConfig path.text)
  | .ok document =>
      modify (·.debug .config ("Loaded config from " ++ path.text))
      ofExcept (Config.ofDocument document)

/-- The report of an analysis. -/
def analysisReport (request : Request) (a : Analysis) (markers : List Text) :
    Except Fault Text :=
  let style := Report.Style.ofMarkers request.color markers
  match request.format, request.top with
  | _, .dropped => .error (.valueDropped "--top")
  | .json, .value top => Report.document a (some top)
  | .json, .missing => Report.document a none
  | .text, .value top => Report.rankingTable a (some top) style
  | .text, .missing => Report.costMap a style

/-- The report that is asked for about a program. -/
def report (request : Request) : Inspecting Text := do
  match request.task with
  | .analyze =>
      let a ← Analysis.ofProgram
      ofExcept (request.analysisReport a (← get).program.config.hotMarkers)
  | .callGraph =>
      let g ← CallGraph.build
      let (g, _) ← Analysis.augment DispatchRule.all g
      return g.report

/-- Load the program and report on it. -/
def reportOn (request : Request) (config : Config) (content : FileContent) :
    Description.Reading Text := fun log =>
  let load := Description.checkedProgramOfFile (request.settle config)
    (request.requirePrefixes config) (PathName.ofText request.program).text content
  match load (log.info .commandLine ("Loading program: " ++ request.program)) with
  | .error fault log => .error fault log
  | .ok program log =>
      match request.report { program, log } with
      | .error fault i => .error fault i.log
      | .ok text i => .ok text i.log

variable {m : Type → Type} [Monad m]

/-- What a file holds, if its path can be used. -/
def contentOf (files : Files m) (path : PathName) : m (Except Fault FileContent) := do
  match PathName.requireUsable path.text with
  | .ok _ => return .ok (← files.read path)
  | .error fault => return .error fault

/-- The configuration to work with. -/
def readConfig (files : Files m) (request : Request) : m (EStateM.Result Fault Log Config) := do
  match request.config with
  | none => return .ok {} #[]
  | some name =>
      let path := PathName.ofText name
      match ← contentOf files path with
      | .ok content => return configOf path content #[]
      | .error fault => return .error fault #[]

/-- Read what the request needs and make the report. -/
def produce (files : Files m) (request : Request) : m (EStateM.Result Fault Log Text) := do
  match ← request.readConfig files with
  | .error fault log => return .error fault log
  | .ok config log =>
      match ← contentOf files (PathName.ofText request.program) with
      | .ok content => return request.reportOn config content log
      | .error fault => return .error fault log

/-- Write the report to a file. If the report has no bytes, the file is left empty. -/
def save (files : Files m) (path : PathName) (text : Text) (log : Log) :
    m (Except Fault (Ending × Log)) := do
  let bytes := Text.encode? text
  match ← files.write path (bytes.getD .empty) with
  | .error (.refused error) =>
      return .ok (.failed, log.error .commandLine ("I/O error: " ++ error.message))
  | .error .tooDeep => return .error .pathTooDeep
  | .ok _ => return if bytes.isSome then .ok (.done [], log) else .error .notEncodable

/-- The path to write to: a home that it starts at is looked up, and then its parts are looked at one
    by one. -/
def destination (files : Files m) (path : PathName) : m (Except Fault PathName) := do
  let checked (path : PathName) := (path.parts.forM PathName.requireUsable).map fun _ => path
  match path.user? with
  | none => return checked path
  | some user =>
      match PathName.requireUsable user with
      | .error fault => return .error fault
      | .ok _ =>
          match ← files.home user with
          | none => return .error .noHome
          | some home => return checked (path.under home)

/-- Put the report where it is asked for. -/
def deliver (files : Files m) (request : Request) (text : Text) (log : Log) :
    m (Except Fault (Ending × Log)) := do
  match request.output with
  | .missing | .value [.char '-'] =>
      return if files.console.takes text then .ok (.done text, log) else .error .notEncodable
  | .dropped => return .error (.valueDropped "--output")
  | .value name =>
      match ← destination files (PathName.ofText name) with
      | .ok path => save files path text log
      | .error fault => return .error fault

/-- Do what is asked for. A refused program or configuration is reported in the log; other faults
    escape. -/
def perform (files : Files m) (request : Request) : m (Except Fault (Ending × Log)) := do
  match ← request.produce files with
  | .ok text log => request.deliver files (text ++ "\n") log
  | .error (.format error) log => return .ok (.failed, log.error .commandLine error.message)
  | .error (.config error) log => return .ok (.failed, log.error .commandLine error.message)
  | .error fault _ => return .error fault

end Request

/-- Run a command line. -/
def run {m : Type → Type} [Monad m] (files : Files m) (words : List Text) :
    m (Except Fault Outcome) := do
  match Request.ofWords words with
  | .error stop => return .ok { ending := .stopped stop }
  | .ok request =>
      let result ← request.perform files
      return result.map fun (ending, log) => { ending, log := log.atLeast request.logLevel }

/-- Files in memory, beside a standard output. -/
def FileTree.access (console : Console := .memory) : Files (StateM FileTree) where
  read path := return (← get).read path
  home user := return ((← get).homes.get? user).map placeName
  write path content := fun tree =>
    match tree.write path content with
    | .ok tree => (.ok (), tree)
    | .error error => (.error error, tree)
  console

end CallWeight.CommandLine
