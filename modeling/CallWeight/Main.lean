import CallWeight.CommandLine.Run
import CallWeight.Release
import Std.Time

/-! # The program

The command line on the files of the machine. What is printed is written in UTF-8.
-/

namespace CallWeight.CommandLine

/-- The failure of a numbered kind. Some calls give the number with a minus sign. -/
def faultOfCode (code : UInt32) (reason : String) : FileFault :=
  match code.toInt32.toInt.natAbs with
  | 2 => .notFound
  | 17 => .alreadyExists
  | 20 => .notDirectory
  | 21 => .isDirectory
  | 36 => .nameTooLong
  | number => .system number reason

/-- What the operating system says about a failure. -/
def fileFault (error : IO.Error) : FileFault :=
  match error with
  | .noFileOrDirectory _ code reason | .alreadyExists _ code reason
  | .inappropriateType _ code reason | .permissionDenied _ code reason
  | .resourceExhausted _ code reason | .invalidArgument _ code reason
  | .resourceVanished code reason | .hardwareFault code reason | .otherError code reason =>
      faultOfCode code reason
  | error => .system 0 (toString error)

/-- Do something with a path and keep its failure as a value. Paths come from the command line, where
    every word is a string; anything else leads nowhere. -/
def onPath (path : PathName) (act : String → IO α) : IO (Except FileError α) := do
  match ← (act (path.text.string?.getD "")).toBaseIO with
  | .ok value => return .ok value
  | .error error => return .error { fault := fileFault error, path := path.text }

/-- The place that a path names. -/
def placeOnDisk (path : PathName) : IO (List Text) := do
  return path.resolve (PathName.ofText (toString (← IO.currentDir))).parts

/-- How many directories are missing, given their names with the last one first. -/
def missingOnDisk : List Text → IO Nat
  | [] => return 0
  | name :: above => do
      let path := (placeName (name :: above).reverse).text
      if ← ((← IO.currentDir) / path.string?.getD "").pathExists then return 0
      return (← missingOnDisk above) + 1

/-- Make a directory and those above it. If that fails, the directory itself is asked for once more,
    so that the failure speaks of it. -/
def makeDirectories (place : List Text) : IO (Except WriteFault Unit) := do
  if (← missingOnDisk place.reverse) > FileTree.levelLimit then return .error .tooDeep
  let path := placeName place
  match ← onPath path fun name => IO.FS.createDirAll name with
  | .ok _ => return .ok ()
  | .error _ => return (← onPath path fun name => IO.FS.createDir name).mapError .refused

/-- The home directory of a user by a table of users, where every line holds a name and, as the last
    field but one, a directory. -/
def homeIn (table : String) (user : Text) : Option PathName :=
  ((table.splitOn "\n").map (·.splitOn ":")).findSome? fun fields =>
    match fields, fields.reverse with
    | name :: _, _ :: home :: _ => if user = name then some (PathName.ofText home) else none
    | _, _ => none

/-- The home directory of a user of the machine. -/
def homeOnDisk (user : Text) : IO (Option PathName) := do
  if user.isEmpty then return some (PathName.ofText ((← IO.getEnv "HOME").getD "/"))
  match ← (IO.FS.readFile "/etc/passwd").toBaseIO with
  | .ok table => return homeIn table user
  | .error _ => return none

/-- The files of the machine. -/
def disk : Files IO where
  read path := onPath path fun name => IO.FS.readBinFile name
  home := homeOnDisk
  write path content := do
    let place ← placeOnDisk path
    match ← makeDirectories place.dropLast with
    | .error fault => return .error fault
    | .ok _ =>
        let written ← onPath (placeName place) fun name => IO.FS.writeBinFile name content
        return written.mapError .refused
  console := .utf8

def usage : String := "\n".intercalate [
  s!"usage: {Release.package} [-h] [--version] [-v] analyze PROGRAM [--config FILE]",
  "         [--exclude PREFIX] [--no-augment] [-o FILE] [--top N]",
  "         [--format text|json] [--no-color]",
  s!"       {Release.package} [-h] [--version] [-v] callgraph PROGRAM [--config FILE]",
  "         [--exclude PREFIX] [--no-augment] [-o FILE]"]

/-- The time of day in hours, minutes and seconds. -/
def timeOfDay : IO String := do
  let now ← Std.Time.PlainTime.now
  let fields := [now.hour.val, now.minute.val, now.second.val].map fun (n : Int) =>
    if n < 10 then "0" ++ toString n else toString n
  return ":".intercalate fields

/-- A text as a terminal shows it, with surrogates as escapes. -/
def shown (text : Text) : String :=
  String.ofList (text.flatMap fun p => p.char?.elim (Json.escapePoint p) ([·]))

/-- Show how a run ended. -/
def present (outcome : Outcome) : IO Unit := do
  let time ← timeOfDay
  outcome.log.forM fun line => IO.eprintln (shown (line.render time))
  match outcome.ending with
  | .stopped .help => IO.println usage
  | .stopped .version => IO.println Release.versionLine
  | .stopped .refused => IO.eprintln usage
  | .done output => IO.print (shown output)
  | .failed => return

end CallWeight.CommandLine

def main (words : List String) : IO UInt32 := do
  match ← CallWeight.CommandLine.run CallWeight.CommandLine.disk (words.map CallWeight.Text.ofString) with
  | .ok outcome =>
      CallWeight.CommandLine.present outcome
      return outcome.ending.exitCode.toUInt32
  | .error fault =>
      IO.eprintln (fault.label ++ ": " ++ CallWeight.CommandLine.shown fault.message)
      return 1
