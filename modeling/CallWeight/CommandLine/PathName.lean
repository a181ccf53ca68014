import CallWeight.Fault
import CallWeight.Text.Split

/-! # Path names

A path is a sequence of parts. Empty parts and single dots do not count; double dots stay, because
what they mean depends on the files.
-/

namespace CallWeight.CommandLine

structure PathName where
  /-- The slashes at the start: none, one or two. -/
  root : Text := []
  parts : List Text := []
  deriving Repr, DecidableEq

/-- The text between the slashes. -/
def splitSlashes : Text → List Text
  | [] => [[]]
  | .char '/' :: rest => [] :: splitSlashes rest
  | p :: rest =>
      match splitSlashes rest with
      | part :: parts => (p :: part) :: parts
      | [] => [[p]]

namespace PathName

/-- Exactly two slashes at the start are kept, more of them count as one. -/
def rootOf : Text → Text
  | .char '/' :: .char '/' :: .char '/' :: _ => "/"
  | .char '/' :: .char '/' :: _ => "//"
  | .char '/' :: _ => "/"
  | _ => []

def ofText (text : Text) : PathName where
  root := rootOf text
  parts := (splitSlashes text).filter fun part => !part.isEmpty && part ≠ "."

/-- The path as a text. The empty path is a single dot. -/
def text (path : PathName) : Text :=
  if path.root.isEmpty && path.parts.isEmpty then "."
  else path.root ++ Text.join "/" path.parts

def isAbsolute (path : PathName) : Bool := !path.root.isEmpty

/-- Take one part from a place: double dots lead one part back. -/
def enter (place : List Text) (part : Text) : List Text :=
  if part = ".." then place.dropLast else place ++ [part]

/-- The parts from the top, seen from a directory, with double dots taken at their word. -/
def resolve (path : PathName) (directory : List Text) : List Text :=
  path.parts.foldl enter (if path.isAbsolute then [] else directory)

/-- The user at whose home a path starts: what follows a tilde at its very start. One's own home is
    that of the user without a name. -/
def user? (path : PathName) : Option Text :=
  match path.root, path.parts with
  | [], (.char '~' :: user) :: _ => some user
  | _, _ => none

/-- The path with its first part replaced by a directory. -/
def under (path directory : PathName) : PathName :=
  { directory with parts := directory.parts ++ path.parts.drop 1 }

/-- The least length in bytes that is too long for a part of a path. -/
def partLimit : Nat := 256

/-- The least length in bytes that is too long for a whole path. -/
def pathLimit : Nat := 4096

/-- The bytes of a code point in the name of a file. The surrogates from U+DC80 to U+DCFF stand for
    the single bytes from 0x80 to 0xFF, other surrogates have no bytes. -/
def bytes? : CodePoint → Option (List UInt8)
  | .char c => some (String.utf8EncodeChar c)
  | .surrogate offset =>
      if 0x480 ≤ offset && offset < 0x500 then some [(offset.val - 0x400).toUInt8] else none

def bytesOf (name : Text) : List UInt8 := (name.filterMap bytes?).flatten

/-- The number of bytes of a name. -/
def byteLength (name : Text) : Nat := (bytesOf name).length

/-- Whether the file system can be asked about a name at all: it must have bytes, and no null
    character among them. -/
def requireUsable (name : Text) : Except Fault Unit :=
  if name.any fun p => (bytes? p).isNone then .error .notEncodable
  else if name.contains (.char '\x00') then .error .nullInPath
  else .ok ()

/-- The character that some bytes spell. -/
def charOf? (bytes : List UInt8) : Option Char :=
  match (String.fromUTF8? ⟨bytes.toArray⟩).map String.toList with
  | some [c] => some c
  | _ => none

/-- The name that bytes spell: where they spell no character, each byte is a surrogate. -/
def ofBytes (bytes : List UInt8) : Text :=
  match bytes with
  | [] => []
  | first :: rest =>
      match [0, 1, 2, 3].findSome? fun n => (charOf? (first :: rest.take n)).map (n, ·) with
      | some (n, c) => .char c :: ofBytes (rest.drop n)
      | none => .ofUnit (0xdc00 + first.toNat) :: ofBytes rest
termination_by bytes.length

/-- The usual spelling of a name. The file system only knows bytes, so two names with the same bytes
    are the same name. -/
def canonical (name : Text) : Text :=
  if name.any CodePoint.isSurrogate then ofBytes (bytesOf name) else name

end PathName

/-- The path of a place from the top. -/
def placeName (place : List Text) : PathName := { root := "/", parts := place }

end CallWeight.CommandLine
