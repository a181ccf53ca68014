import CallWeight.FileError
import CallWeight.Json.Literal
import CallWeight.Text.Integer

/-! # Faults

Everything that can stop a computation: a refused program description or configuration, a query of
the program that fails, the use of a document value as something it is not, and what goes beyond a
limit. Each fault knows the word for its kind and its message.
-/

namespace CallWeight

/-- Why a program description is refused. `site` is the signature of the method at fault. -/
inductive FormatError where
  | malformedSignature (signature : Text)
  | statementNotObject (site : Text) (index : Nat)
  | nestedWithoutInvoke (site : Text) (index : Nat)
  | loopOutsideBody (site : Text) (position : Json)
  | loopsAndSuccessors (site : Text)
  | successorsNotObject (site : Text)
  | badSuccessorKey (site : Text) (key : Text)
  | emptyLoop (site : Text)
  | methodWithoutSubsignature (owner : Text)
  | noClasses
  | classWithoutName
  | duplicateClass (name : Text)
  | foreignMethod (signature owner : Text)
  | unreadable (path : Text) (error : FileError)
  | notJson (path : Text)
  | notObject (path : Text)
  deriving Repr

def FormatError.message : FormatError → Text
  | .malformedSignature signature => "malformed signature " ++ Text.quote signature
  | .statementNotObject site index => site ++ s!": statement {index} must be an object"
  | .nestedWithoutInvoke site index => site ++ s!": statement {index} is nested but has no invoke"
  | .loopOutsideBody site position => site ++ s!": loop refers to statement {position.literal}"
  | .loopsAndSuccessors site => site ++ ": give either 'loops' or 'successors'"
  | .successorsNotObject site => site ++ ": 'successors' must be an object"
  | .badSuccessorKey site key => site ++ ": bad successor key " ++ Text.quote key
  | .emptyLoop site => site ++ ": empty loop"
  | .methodWithoutSubsignature owner => "class " ++ owner ++ ": every method needs a 'subsignature'"
  | .noClasses => "program must have a 'classes' list"
  | .classWithoutName => "every class needs a 'name'"
  | .duplicateClass name => "duplicate class " ++ name
  | .foreignMethod signature owner => "method " ++ signature ++ " does not belong to class " ++ owner
  | .unreadable path error => "cannot read program " ++ path ++ ": " ++ error.message
  | .notJson path => "program " ++ path ++ " is not valid JSON"
  | .notObject path => "program " ++ path ++ " must hold a JSON object"

/-- Why a configuration is refused. -/
inductive ConfigError where
  | unknownKeys (keys : List Text)
  | notListOfStrings (key : Text)
  | unreadable (path : Text) (error : FileError)
  | notJson (path : Text)
  | notObject (path : Text)
  deriving Repr

def ConfigError.message : ConfigError → Text
  | .unknownKeys keys => "unknown config keys: " ++ Text.join ", " keys
  | .notListOfStrings key => key ++ " must be a list of strings"
  | .unreadable path error => "cannot read config " ++ path ++ ": " ++ error.message
  | .notJson path => "config " ++ path ++ " is not valid JSON"
  | .notObject path => "config " ++ path ++ " must hold a JSON object"

/-- The word for the kind of a document value. -/
def Json.kindName : Json → String
  | .atom .null => "NoneType"
  | .atom (.bool _) => "bool"
  | .atom (.int _) => "int"
  | .atom (.real _) => "float"
  | .atom (.text _) => "str"
  | .arr _ => "list"
  | .obj _ => "dict"

inductive Fault where
  | format (error : FormatError)
  | config (error : ConfigError)
  /-- A query of the program failed with a message of its own. -/
  | query (message : Text)
  /-- A loop weight was asked for a depth below zero. -/
  | negativeDepth (depth : Json)
  /-- A value without parts was used as a sequence. -/
  | notIterable (kind : String)
  /-- A value with parts was used as a table key. -/
  | notHashable (kind : String)
  /-- A value other than a text was used as a text. The operation is one that only texts have. -/
  | notText (kind operation : String)
  /-- A value other than a text was to be compared or joined with texts. -/
  | textExpected (kind : String)
  /-- A value other than an integer was used as a position. -/
  | notInteger (kind : String)
  /-- A value other than an object was used as one. -/
  | notObject (kind : String)
  /-- A field name was given alone, where names and values are expected. -/
  | nameAlone (name : Text)
  /-- A setting that no configuration has. -/
  | unknownSetting (name : Text)
  /-- An option is needed whose value was dropped. -/
  | valueDropped (option : String)
  /-- The bytes of a file are no text. -/
  | notUtf8
  /-- A text has code points without bytes in the encoding of a file, a path or an output. -/
  | notEncodable
  /-- A path holds a null character. -/
  | nullInPath
  /-- A path starts at the home of somebody who has none. -/
  | noHome
  /-- A document has more brackets inside each other than are read. -/
  | nestedTooDeeply
  /-- More directories are missing on the way to a file than are made. -/
  | pathTooDeep
  /-- A text is no integer. -/
  | malformedInteger (text : Text)
  /-- A number is not finite and has no integer part. -/
  | notFinite (isNaN : Bool)
  /-- An integer has more digits than are read. -/
  | unreadableInteger (digits : Nat)
  /-- An integer has more digits than are written. -/
  | unwritableInteger
  /-- A statement was asked of a procedure without a body. -/
  | noBody (signature : Text)
  /-- A list was asked for an item at a position that it does not have. -/
  | noItem (position : Int)
  /-- Two values were compared that have no order. -/
  | notComparable (first second : String)
  /-- Something was asked under a name that was never given. -/
  | unknownName (name : Text)
  /-- A value is none of those that a family of choices has. -/
  | noChoice (value family : String)
  deriving Repr

namespace Fault

/-- How messages mention the most digits of an integer. -/
def digitLimitMessage : String :=
  s!"Exceeds the limit ({Text.digitLimit} digits) for integer string conversion"

def digitLimitAdvice : String := "; use sys.set_int_max_str_digits() to increase the limit"

/-- The word for the kind of a fault. -/
def label : Fault → String
  | .format _ => "ProgramFormatError"
  | .config _ => "ConfigError"
  | .query _ | .noHome => "RuntimeError"
  | .negativeDepth _ | .nameAlone _ | .nullInPath | .malformedInteger _ | .unreadableInteger _
  | .unwritableInteger | .notFinite true | .noChoice .. => "ValueError"
  | .notFinite false => "OverflowError"
  | .notIterable _ | .notHashable _ | .textExpected _ | .notInteger _ | .unknownSetting _
  | .valueDropped _ | .noBody _ | .notComparable .. => "TypeError"
  | .notText .. | .notObject _ => "AttributeError"
  | .notUtf8 => "UnicodeDecodeError"
  | .notEncodable => "UnicodeEncodeError"
  | .nestedTooDeeply | .pathTooDeep => "RecursionError"
  | .noItem _ => "IndexError"
  | .unknownName _ => "KeyError"

def message : Fault → Text
  | .format error => error.message
  | .config error => error.message
  | .query message => message
  | .negativeDepth depth => "loop depth must be non-negative, got " ++ depth.display
  | .notIterable kind => s!"'{kind}' object is not iterable"
  | .notHashable kind => s!"unhashable type: '{kind}'"
  | .notText kind operation => s!"'{kind}' object has no attribute '{operation}'"
  | .textExpected kind => s!"expected a text, not '{kind}'"
  | .notInteger kind => s!"'{kind}' object is not an integer"
  | .notObject kind => s!"'{kind}' object has no fields"
  | .nameAlone name =>
      s!"dictionary update sequence element #0 has length {name.length}; 2 is required"
  | .unknownSetting name => "unknown setting " ++ Text.quote name
  | .valueDropped option => s!"{option} has no value"
  | .notUtf8 => "file is not valid UTF-8"
  | .notEncodable => "text has code points that cannot be encoded"
  | .nullInPath => "embedded null byte"
  | .noHome => "Could not determine home directory."
  | .nestedTooDeeply => "document is nested too deeply"
  | .pathTooDeep => "too many directories are missing"
  | .malformedInteger text => "invalid literal for int() with base 10: " ++ Text.excerpt text
  | .notFinite true => "cannot convert float NaN to integer"
  | .notFinite false => "cannot convert float infinity to integer"
  | .unreadableInteger digits =>
      digitLimitMessage ++ s!": value has {digits} digits" ++ digitLimitAdvice
  | .unwritableInteger => digitLimitMessage ++ digitLimitAdvice
  | .noBody signature => signature ++ " has no body"
  | .noItem position => s!"no item at position {position}"
  | .notComparable first second => s!"'{first}' and '{second}' have no order"
  | .unknownName name => "unknown name " ++ name
  | .noChoice value family => s!"{value} is not a valid {family}"

end Fault

namespace Json

/-- The parts of a value that is used as a sequence: a text gives its code points, an object its
    keys. -/
def items : Json → Except Fault (List Json)
  | .arr items => .ok items
  | .atom (.text value) => .ok (value.map fun p => .text [p])
  | .obj fields => .ok (fields.map fun (key, _) => .text key)
  | value => .error (.notIterable value.kindName)

/-- A value that is used as a table key. -/
def asKey : Json → Except Fault Atom
  | .atom value => .ok value
  | value => .error (.notHashable value.kindName)

/-- A value that is used as a position. -/
def asPosition (value : Json) : Except Fault Int :=
  let number := match value with
    | .atom value => value.asInt?
    | _ => none
  match number with
  | some n => .ok n
  | none => .error (.notInteger value.kindName)

/-- A value that is used as a counter: an integer, the digits of one in a text, or a number whose
    fraction is dropped. -/
def asCounter : Json → Except Fault Int
  | .text digits =>
      match Text.readInteger digits with
      | .ok n => .ok n
      | .error .malformed => .error (.malformedInteger digits)
      | .error (.tooLong count) => .error (.unreadableInteger count)
  | .atom (.real bits) =>
      if Decimal.Binary64.isNaN bits then .error (.notFinite true)
      else if Decimal.Binary64.isInfinite bits then .error (.notFinite false)
      else .ok (Decimal.Binary64.truncated bits)
  | value => value.asPosition

/-- A value that is used as a text, by an operation of texts. -/
def asText (operation : String) : Json → Except Fault Text
  | .atom (.text value) => .ok value
  | value => .error (.notText value.kindName operation)

/-- A value that is used as a loop depth. A fraction below zero is told as it was given. -/
def asDepth : Json → Except Fault Int
  | .atom (.real bits) =>
      if Decimal.Binary64.signedMantissa bits < 0 && !Decimal.Binary64.isNaN bits then
        .error (.negativeDepth (.atom (.real bits)))
      else .error (.notInteger (Json.atom (.real bits)).kindName)
  | value => value.asPosition

/-- The item at a position of a value that is used as a sequence. -/
def itemAt (position : Nat) : Json → Except Fault Json
  | .obj _ => .error (.unknownName (toString position))
  | value => do
      match (← value.items)[position]? with
      | some item => return item
      | none => throw (.noItem position)

/-- A value that is used as the end of a list. Null stands for the whole list. -/
def asEnd : Json → Except Fault (Option Int)
  | .null => .ok none
  | value => value.asPosition.map some

end Json

end CallWeight
