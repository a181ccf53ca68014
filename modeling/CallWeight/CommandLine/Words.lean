import CallWeight.Text.Digit
import CallWeight.Text.Split

/-! # The words of a command line

Before anything is acted upon, every word is told apart: an argument, an option, the divider behind
which everything is an argument, or something that looks like an option but is none. Long options
may be shortened as long as they stay unique, short options may be written together in one word, and
a value may be joined to its option. A joined value that reads like the divider is dropped: the
option was given, but without a value.
-/

namespace CallWeight.CommandLine

structure OptionSpec (α : Type) where
  option : α
  names : List Text
  takesValue : Bool := false

inductive Word (α : Type) where
  | argument (text : Text)
  /-- Two dashes: every later word is an argument. -/
  | divider
  /-- An option, with what is joined to it in the same word. -/
  | option (spec : OptionSpec α) (name : Text) (joined : Option Text)
  /-- It looks like an option but is none. -/
  | unknown

/-- An option together with its value. There is none if it takes none or if the value was dropped. -/
structure OptionUse (α : Type) where
  option : α
  value : Option Text := none

/-- Why the words of a command line ask for no work. -/
inductive Stop where
  | help
  | version
  /-- The words cannot be understood. -/
  | refused
  deriving Repr, DecidableEq

variable {α : Type}

/-- Negative numbers are arguments although they start with a dash. A final line break does not
    count. -/
def isNegativeNumber (text : Text) : Bool :=
  let isDigit (p : CodePoint) := (p.char?.bind Text.digitValue?).isSome
  let digits (part : Text) := !part.isEmpty && part.all isDigit
  match text with
  | .char '-' :: rest =>
      let rest := if rest.getLast? = some (.char '\n') then rest.dropLast else rest
      digits rest ||
        match Text.splitFirst [.char '.'] rest with
        | some (whole, fraction) => whole.all isDigit && digits fraction
        | none => false
  | _ => false

def named? (options : List (OptionSpec α)) (name : Text) : Option (OptionSpec α) :=
  options.find? (·.names.contains name)

/-- The spellings that start with the given text, each with its option. -/
def completions (options : List (OptionSpec α)) (start : Text) : List (OptionSpec α × Text) :=
  options.flatMap fun spec =>
    (spec.names.filter fun name => start.isPrefixOf name).map (spec, ·)

/-- A word with a dash that names no option. -/
def unmatched (text : Text) : Word α :=
  if isNegativeNumber text || text.contains (.char ' ') then .argument text else .unknown

/-- What stands before the first equals sign, and what stands behind it. -/
def splitAtEquals (text : Text) : Text × Option Text :=
  match Text.splitFirst [.char '='] text with
  | some (head, value) => (head, some value)
  | none => (text, none)

/-- A long option that is written out only in part. It must be the start of one spelling alone. -/
def shortened (options : List (OptionSpec α)) (text : Text) : Except Stop (Word α) :=
  let (head, value) := splitAtEquals text
  match completions options head with
  | [] => .ok (unmatched text)
  | [(spec, name)] => .ok (.option spec name value)
  | _ => .error .refused

/-- Tell a word apart from others. -/
def classify (options : List (OptionSpec α)) (text : Text) : Except Stop (Word α) :=
  match text with
  | .char '-' :: second :: rest =>
      let (head, value) := splitAtEquals text
      match named? options text, value, named? options head with
      | some spec, _, _ => .ok (.option spec text none)
      | none, some value, some spec => .ok (.option spec head (some value))
      | none, _, _ =>
          if second = .char '-' then shortened options text
          else
            let name := [.char '-', second]
            match named? options name with
            | some spec => .ok (.option spec name (some rest))
            | none => .ok (unmatched text)
  | _ => .ok (.argument text)

def classifyAll (options : List (OptionSpec α)) : List Text → Except Stop (List (Word α))
  | [] => .ok []
  | [.char '-', .char '-'] :: rest => .ok (.divider :: rest.map .argument)
  | text :: rest => do
      let word ← classify options text
      return word :: (← classifyAll options rest)

/-- The options of one word. -/
structure Spread (α : Type) where
  uses : List (OptionUse α)
  /-- The last option, if its value has to come from the next word. -/
  waiting : Option α := none

/-- An option with a joined value. -/
def OptionUse.joined (option : α) (value : Text) : OptionUse α :=
  { option, value := if value = "--" then none else some value }

/-- A short option without a value, and the options written behind it in the same word, one letter
    each. All that follows an option which takes a value is its value. -/
def spreadFlags (options : List (OptionSpec α)) (flag : α) : Text → Except Stop (Spread α)
  | [] => .error .refused
  | letter :: rest =>
      match named? options [.char '-', letter], rest with
      | none, _ => .error .refused
      | some { option, takesValue := true, .. }, [] =>
          .ok { uses := [{ option := flag }], waiting := some option }
      | some { option, takesValue := true, .. }, value =>
          .ok { uses := [{ option := flag }, .joined option value] }
      | some { option, .. }, [] => .ok { uses := [{ option := flag }, { option }] }
      | some { option, .. }, rest => do
          let spread ← spreadFlags options option rest
          return { spread with uses := { option := flag } :: spread.uses }

/-- The options of a word that starts with the given one. A long option without a value allows
    nothing behind it. -/
def spread (options : List (OptionSpec α)) (spec : OptionSpec α) (name : Text) :
    Option Text → Except Stop (Spread α)
  | none =>
      if spec.takesValue then .ok { uses := [], waiting := some spec.option }
      else .ok { uses := [{ option := spec.option }] }
  | some joined =>
      if spec.takesValue then .ok { uses := [.joined spec.option joined] }
      else if [.char '-', .char '-'].isPrefixOf name then .error .refused
      else spreadFlags options spec.option joined

end CallWeight.CommandLine
