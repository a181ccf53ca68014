import CallWeight.Config.Basic
import CallWeight.DocumentFile

/-! # Configurations from documents

A configuration document is an object with some of the known fields; fields that are left out keep
their defaults. Single settings can also be replaced later, and those replacements are not checked.
-/

namespace CallWeight

namespace Config

/-- The fields that hold lists of texts, in the order in which they are checked. -/
def listFields : List Text :=
  ["library_prefixes", "thread_start_signatures", "submit_signatures", "hot_markers"]

def fields : List Text :=
  ["library_prefixes", "augment_callgraph", "runnable_interface", "thread_class",
    "entry_subsignature", "thread_start_signatures", "submit_signatures", "hot_markers"]

/-- The texts of a list, or its first item that is no text. -/
def allTexts : List Json → Except Json (List Text)
  | [] => .ok []
  | .text value :: rest => (allTexts rest).map (value :: ·)
  | value :: _ => .error value

/-- A list field of a document, or its default. A text is not taken for a list. -/
def listField (document : Json) (key : Text) (default : List Text) :
    Except Fault (List Text) :=
  match document.field? key with
  | none => .ok default
  | some (.text _) => .error (.config (.notListOfStrings key))
  | some value => do
      match allTexts (← value.items) with
      | .ok texts => return texts
      | .error _ => throw (.config (.notListOfStrings key))

/-- The names in a document that are no field, sorted. -/
def unknownKeys (document : Json) : Except Fault (List Text) := do
  let keys ← (← document.items).mapM Json.asKey
  let unknown := keys.filter fun key => !fields.any fun field => key = .text field
  match allTexts (unknown.map .atom) with
  | .ok texts => return texts.eraseDups.mergeSort (· ≤ ·)
  | .error value => throw (.textExpected value.kindName)

/-- Read a configuration. A sequence of field names alone passes for an object until the values are
    looked for. -/
def ofDocument (document : Json) : Except Fault Config := do
  let unknown ← unknownKeys document
  if !unknown.isEmpty then throw (.config (.unknownKeys unknown))
  if let .arr (.text name :: _) := document then throw (.nameAlone name)
  let default : Config := {}
  let libraryPrefixes ← listField document "library_prefixes" default.libraryPrefixes
  let threadStartSignatures ←
    listField document "thread_start_signatures" default.threadStartSignatures
  let submitSignatures ← listField document "submit_signatures" default.submitSignatures
  let hotMarkers ← listField document "hot_markers" default.hotMarkers
  let single (key : Text) (value : Json) := (document.field? key).getD value
  return {
    libraryPrefixes, threadStartSignatures, submitSignatures, hotMarkers
    augmentCallGraph := single "augment_callgraph" default.augmentCallGraph
    runnableInterface := single "runnable_interface" default.runnableInterface
    threadClass := single "thread_class" default.threadClass
    entrySubsignature := single "entry_subsignature" default.entrySubsignature }

end Config

namespace Settings

/-- The new value of a list setting: any sequence, or nothing. -/
def listValue : Json → Except Fault (Option (List Json))
  | .null => .ok none
  | value => value.items.map some

/-- Replace one setting. -/
def override (settings : Settings) (key : Text) (value : Json) : Except Fault Settings :=
  match key.string? with
  | some "library_prefixes" => return { settings with libraryPrefixes := ← listValue value }
  | some "augment_callgraph" => .ok { settings with augmentCallGraph := value }
  | some "runnable_interface" => .ok { settings with runnableInterface := value }
  | some "thread_class" => .ok { settings with threadClass := value }
  | some "entry_subsignature" => .ok { settings with entrySubsignature := value }
  | some "thread_start_signatures" =>
      return { settings with threadStartSignatures := ← listValue value }
  | some "submit_signatures" => return { settings with submitSignatures := ← listValue value }
  | some "hot_markers" => return { settings with hotMarkers := ← listValue value }
  | _ => .error (.unknownSetting key)

def overrideAll (settings : Settings) (replacements : List (Text × Json)) :
    Except Fault Settings :=
  replacements.foldlM (fun settings (key, value) => settings.override key value) settings

end Settings

/-- Why a file gives no configuration. -/
def DocumentFault.forConfig (path : Text) : DocumentFault → Fault
  | .unreadable error => .config (.unreadable path error)
  | .notJson => .config (.notJson path)
  | .notObject => .config (.notObject path)
  | .general fault => fault

end CallWeight
