import CallWeight.Fault
import CallWeight.Text.Blank
import CallWeight.Text.Split

/-! # Configuration

What counts as library code, which names the runtime gives to its runnable interface, its thread
class and their entry method, and which calls hand work to another thread.

`Settings` holds the fields as they were given, unchecked; `Config` is what an analysis works with.
In a `Config` the lists hold texts. Its single names stay as they were given, because an analysis
only compares and prints them.
-/

namespace CallWeight

structure Config where
  /-- Classes in packages that start with one of these are library code. -/
  libraryPrefixes : List Text := ["java.", "jdk.", "soot.", "sun.", "oracle.", "scala."]
  augmentCallGraph : Json := .bool true
  runnableInterface : Json := .text "java.lang.Runnable"
  threadClass : Json := .text "java.lang.Thread"
  entrySubsignature : Json := .text "void run()"
  threadStartSignatures : List Text := ["<java.lang.Thread: void start()>"]
  submitSignatures : List Text := [
    "<java.util.concurrent.ExecutorService: "
      ++ "java.util.concurrent.Future submit(java.lang.Runnable)>"]
  /-- Procedures whose signature holds one of these are highlighted. -/
  hotMarkers : List Text := [" benchmark(", " runIteration("]
  deriving Repr, Inhabited

/-- The package part of a class name: what stands before its last dot. -/
def packageOf (className : Text) : Text :=
  match Text.splitLast (.char '.') className with
  | some (package, _) => package
  | none => []

/-- Whether a class lies in a package whose name starts with a library prefix. -/
def Config.isLibraryClass (config : Config) (className : Text) : Bool :=
  config.libraryPrefixes.any fun start => start.isPrefixOf (packageOf className)

/-- Whether a name is that of a class outside the library. -/
def Config.isApplicationClass (config : Config) : Atom → Bool
  | .text className => !config.isLibraryClass className
  | _ => false

/-- Configuration fields as they were given. A list may be missing, and nothing is known about the
    kinds of its items. -/
structure Settings where
  libraryPrefixes : Option (List Json)
  augmentCallGraph : Json
  runnableInterface : Json
  threadClass : Json
  entrySubsignature : Json
  threadStartSignatures : Option (List Json)
  submitSignatures : Option (List Json)
  hotMarkers : Option (List Json)
  deriving Repr

def Config.toSettings (config : Config) : Settings where
  libraryPrefixes := some (config.libraryPrefixes.map .text)
  augmentCallGraph := config.augmentCallGraph
  runnableInterface := config.runnableInterface
  threadClass := config.threadClass
  entrySubsignature := config.entrySubsignature
  threadStartSignatures := some (config.threadStartSignatures.map .text)
  submitSignatures := some (config.submitSignatures.map .text)
  hotMarkers := some (config.hotMarkers.map .text)

namespace Settings

/-- Warnings about settings that make an analysis useless. -/
def warnings (settings : Settings) : Except Fault (List String) := do
  let entry ← settings.entrySubsignature.asText "strip"
  let prefixes ← match settings.libraryPrefixes with
    | some prefixes => pure prefixes
    | none => throw (.notIterable Json.null.kindName)
  let blankEntry := entry.all fun p => p.char?.any Text.isBlank
  let dispatches (signatures : Option (List Json)) := !(signatures.getD []).isEmpty
  let noDispatch := settings.augmentCallGraph.truthy
    && !(dispatches settings.threadStartSignatures || dispatches settings.submitSignatures)
  return (if blankEntry then ["entry_subsignature must not be empty"] else [])
    ++ (if prefixes.any (!·.truthy) then
        ["empty library prefix classifies every class as library code"] else [])
    ++ (if noDispatch then
        ["augment_callgraph is set but no dispatch signatures are configured"] else [])

/-- Whether one of the prefixes starts a package name. A prefix that is no text is a fault only if
    no earlier one fits. -/
def startsPackage (package : Text) : List Json → Except Fault Bool
  | [] => .ok false
  | .text start :: rest =>
      if start.isPrefixOf package then .ok true else startsPackage package rest
  | value :: _ => .error (.textExpected value.kindName)

def isLibraryClass (settings : Settings) (className : Json) : Except Fault Bool := do
  let name ← className.asText "rpartition"
  match settings.libraryPrefixes with
  | some prefixes => startsPackage (packageOf name) prefixes
  | none => throw (.notIterable Json.null.kindName)

/-- The fields under their names. -/
def toJson (settings : Settings) : Json :=
  .obj [
    ("library_prefixes", Json.ofOption .arr settings.libraryPrefixes),
    ("augment_callgraph", settings.augmentCallGraph),
    ("runnable_interface", settings.runnableInterface),
    ("thread_class", settings.threadClass),
    ("entry_subsignature", settings.entrySubsignature),
    ("thread_start_signatures", Json.ofOption .arr settings.threadStartSignatures),
    ("submit_signatures", Json.ofOption .arr settings.submitSignatures),
    ("hot_markers", Json.ofOption .arr settings.hotMarkers)]

end Settings

/-- Warnings about a configuration that makes an analysis useless. -/
def Config.warnings (config : Config) : Except Fault (List String) :=
  config.toSettings.warnings

end CallWeight
