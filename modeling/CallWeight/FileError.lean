import CallWeight.Text.Quoted

/-! # Failures of file access -/

namespace CallWeight

/-- Why the file system refuses a path. -/
inductive FileFault where
  | notFound
  | alreadyExists
  | notDirectory
  | isDirectory
  | nameTooLong
  /-- Anything else that the operating system reports. -/
  | system (number : Nat) (reason : String)
  deriving Repr, DecidableEq

namespace FileFault

def number : FileFault → Nat
  | .notFound => 2
  | .alreadyExists => 17
  | .notDirectory => 20
  | .isDirectory => 21
  | .nameTooLong => 36
  | .system number _ => number

def reason : FileFault → String
  | .notFound => "No such file or directory"
  | .alreadyExists => "File exists"
  | .notDirectory => "Not a directory"
  | .isDirectory => "Is a directory"
  | .nameTooLong => "File name too long"
  | .system _ reason => reason

end FileFault

structure FileError where
  fault : FileFault
  path : Text
  deriving Repr, DecidableEq

def FileError.message (e : FileError) : String :=
  s!"[Errno {e.fault.number}] {e.fault.reason}: " ++ Text.quote e.path

end CallWeight
