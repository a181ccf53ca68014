import CallWeight.Fault
import CallWeight.Json.Reader

/-! # Documents in files

A file holds a document if its bytes are a text, the text is one value, and the value is an object.
-/

namespace CallWeight

/-- Why a file holds no document. -/
inductive DocumentFault where
  | unreadable (error : FileError)
  | notJson
  | notObject
  /-- A fault that has nothing to do with what the document is for. -/
  | general (fault : Fault)
  deriving Repr

/-- What reading a file gives. -/
abbrev FileContent := Except FileError ByteArray

def Json.ReadFault.forDocument : Json.ReadFault → DocumentFault
  | .malformed => .notJson
  | .nestedTooDeeply => .general .nestedTooDeeply
  | .integerTooLong digits => .general (.unreadableInteger digits)

def documentOf (content : FileContent) : Except DocumentFault Json :=
  match content with
  | .error error => .error (.unreadable error)
  | .ok bytes =>
      match String.fromUTF8? bytes with
      | none => .error (.general .notUtf8)
      | some text =>
          match Json.read text with
          | .error fault => .error fault.forDocument
          | .ok (.obj fields) => .ok (.obj fields)
          | .ok _ => .error .notObject

end CallWeight
