import CallWeight.Inspection

/-! # Runnable entry points

The methods that another thread may run: the entry methods of application classes that implement the
runnable interface or descend from the thread class. A class that cannot be classified is recorded
and left out.
-/

namespace CallWeight.Dispatch

/-- Whether a class can run on a thread. The second question is only asked if the first is answered
    with no. -/
def isRunnable (c : ClassDecl) : Inspecting Bool := do
  if ← Inspecting.ask (·.implementsRunnable c) then return true
  Inspecting.ask (·.isThreadSubclass c)

/-- Nothing for a class that cannot run on a thread, otherwise its entry method if it has one. -/
def entryOf (c : ClassDecl) : Inspecting (Option (Option Procedure)) := do
  if ← isRunnable c then return some (← Inspecting.entryPoint c)
  return none

/-- The entry of one class, with what goes wrong recorded. -/
def classEntry (config : Config) (c : ClassDecl) (i : Inspection) : Option Procedure × Inspection :=
  match (entryOf c).attempt i with
  | (.error fault, i) =>
      (none, (i.record "augment" {
          kind := .classificationFailure
          message := "class " ++ c.name.display ++ " could not be classified as runnable"
          cause := some fault.toCause }).debug .dispatch
        ("Skipping class " ++ c.name.display ++ ": " ++ fault.message))
  | (.ok none, i) => (none, i)
  | (.ok (some none), i) =>
      (none, i.debug .dispatch
        ("Runnable " ++ c.name.display ++ " has no " ++ config.entrySubsignature.display))
  | (.ok (some (some p)), i) => (some p, i)

/-- The entries of a list of classes. Interfaces have none. -/
def entriesOf (config : Config) : List ClassDecl → Inspection → List Procedure × Inspection
  | [], i => ([], i)
  | c :: rest, i =>
      if c.isInterface then entriesOf config rest i
      else
        let (entry, i) := classEntry config c i
        let (entries, i) := entriesOf config rest i
        (entry.toList ++ entries, i)

/-- The entries of all application classes. The configuration only words the log lines. -/
def runnableEntries (config : Config) (i : Inspection) : List Procedure × Inspection :=
  entriesOf config i.program.applicationClasses i

/-- The entries, with nothing recorded as an issue. -/
def runnableEntriesQuietly (config : Config) (i : Inspection) : List Procedure × Inspection :=
  let (entries, after) := runnableEntries config i
  (entries, { after with issues := i.issues })

end CallWeight.Dispatch
