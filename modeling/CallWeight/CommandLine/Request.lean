import CallWeight.CommandLine.Words
import CallWeight.Text.Integer

/-! # What a command line asks for

A few general options come first, then the name of a task, then the program to look at and the
options of the task in any order.
-/

namespace CallWeight.CommandLine

inductive Task where
  | analyze
  | callGraph
  deriving Repr, DecidableEq

inductive ReportFormat where
  | text
  | json
  deriving Repr, DecidableEq

/-- What the words say about an option that takes a value. -/
inductive Given (α : Type) where
  | missing
  /-- The option was given, but its value was dropped. -/
  | dropped
  | value (value : α)
  deriving Repr

structure Request where
  task : Task
  /-- How often more log lines were asked for. -/
  verbosity : Nat := 0
  program : Text := []
  config : Option Text := none
  /-- Further library prefixes, nothing for one that was dropped. -/
  excludes : List (Option Text) := []
  augment : Bool := true
  output : Given Text := .missing
  /-- The end of the ranking to show. -/
  top : Given Int := .missing
  format : ReportFormat := .text
  color : Bool := true
  deriving Repr

inductive GeneralOption where
  | help
  | version
  | verbose

def generalOptions : List (OptionSpec GeneralOption) := [
  { option := .help, names := ["-h", "--help"] },
  { option := .version, names := ["--version"] },
  { option := .verbose, names := ["-v", "--verbose"] }]

inductive TaskOption where
  | help
  | config
  | exclude
  | noAugment
  | output
  | top
  | format
  | noColor

def sharedOptions : List (OptionSpec TaskOption) := [
  { option := .help, names := ["-h", "--help"] },
  { option := .config, names := ["--config"], takesValue := true },
  { option := .exclude, names := ["--exclude"], takesValue := true },
  { option := .noAugment, names := ["--no-augment"] },
  { option := .output, names := ["-o", "--output"], takesValue := true }]

namespace Task

def options : Task → List (OptionSpec TaskOption)
  | .callGraph => sharedOptions
  | .analyze => sharedOptions ++ [
      { option := .top, names := ["--top"], takesValue := true },
      { option := .format, names := ["--format"], takesValue := true },
      { option := .noColor, names := ["--no-color"] }]

def named? (name : Text) : Option Task :=
  match name.string? with
  | some "analyze" => some .analyze
  | some "callgraph" => some .callGraph
  | _ => none

end Task

def Given.ofOption : Option α → Given α
  | some given => .value given
  | none => .dropped

/-- A request in the middle of its words. -/
structure Draft where
  request : Request
  /-- Whether the program was named. -/
  complete : Bool := false
  /-- Whether a word was met that has no place. -/
  stray : Bool := false

namespace Draft

def withProgram (draft : Draft) (program : Text) : Draft :=
  { draft with request := { draft.request with program }, complete := true }

/-- The end of a ranking. -/
def topOf : Option Text → Except Stop (Given Int)
  | none => .ok .dropped
  | some text =>
      match Text.readInteger text with
      | .ok top => .ok (.value top)
      | .error _ => .error .refused

/-- The format of a report. Without a value it is the usual one. -/
def formatOf : Option Text → Except Stop ReportFormat
  | none => .ok .text
  | some name =>
      match name.string? with
      | some "text" => .ok .text
      | some "json" => .ok .json
      | _ => .error .refused

/-- Act upon an option of the task. An empty name asks for no configuration file. -/
def apply (request : Request) (use : OptionUse TaskOption) : Except Stop Request :=
  match use.option with
  | .help => .error .help
  | .config => .ok { request with config := use.value.filter (!·.isEmpty) }
  | .exclude => .ok { request with excludes := request.excludes ++ [use.value] }
  | .noAugment => .ok { request with augment := false }
  | .output => .ok { request with output := .ofOption use.value }
  | .top => do return { request with top := ← topOf use.value }
  | .format => do return { request with format := ← formatOf use.value }
  | .noColor => .ok { request with color := false }

def applyAll (draft : Draft) (uses : List (OptionUse TaskOption)) : Except Stop Draft := do
  return { draft with request := ← uses.foldlM apply draft.request }

/-- Go through the words behind the name of the task. A divider right before or behind the program
    belongs to it. -/
def read (options : List (OptionSpec TaskOption)) (draft : Draft) :
    List (Word TaskOption) → Except Stop Draft
  | [] => .ok draft
  | .option spec name joined :: rest => do
      let found ← spread options spec name joined
      match found.waiting, rest with
      | none, rest => read options (← draft.applyAll found.uses) rest
      | some option, .argument value :: rest =>
          read options (← draft.applyAll (found.uses ++ [{ option, value := some value }])) rest
      | some _, _ => throw .refused
  | .unknown :: rest => read options { draft with stray := true } rest
  | .divider :: rest =>
      match draft.complete, rest with
      | false, .argument program :: rest => read options (draft.withProgram program) rest
      | _, rest => read options { draft with stray := true } rest
  | .argument program :: rest =>
      match draft.complete, rest with
      | true, rest => read options { draft with stray := true } rest
      | false, .divider :: rest | false, rest => read options (draft.withProgram program) rest

end Draft

/-- Act upon a general option. -/
def applyGeneral (verbosity : Nat) (use : OptionUse GeneralOption) : Except Stop Nat :=
  match use.option with
  | .help => .error .help
  | .version => .error .version
  | .verbose => .ok (verbosity + 1)

/-- The words before the name of a task: how many there are, how often more log lines are asked for,
    and whether one of them has no place. -/
def readGeneral (verbosity : Nat) (stray : Bool) (count : Nat) :
    List (Word GeneralOption) → Except Stop (Nat × Nat × Bool)
  | .option spec name joined :: rest => do
      let found ← spread generalOptions spec name joined
      let verbosity ← found.uses.foldlM applyGeneral verbosity
      readGeneral verbosity stray (count + 1) rest
  | .unknown :: rest => readGeneral verbosity true (count + 1) rest
  | _ => .ok (count, verbosity, stray)

/-- What the words ask for. General options are told apart in all words first, so that even a word
    behind the task's name must not be ambiguous among them. -/
def Request.ofWords (words : List Text) : Except Stop Request := do
  let (count, verbosity, stray) ← readGeneral 0 false 0 (← classifyAll generalOptions words)
  match words.drop count with
  | [] => throw .refused
  | name :: rest =>
      match Task.named? name with
      | none => throw .refused
      | some task =>
          let draft : Draft := { request := { task, verbosity }, stray }
          let draft ← draft.read task.options (← classifyAll task.options rest)
          if draft.stray || !draft.complete then throw .refused
          return draft.request

end CallWeight.CommandLine
