import CallWeight.CommandLine.PathName
import CallWeight.DocumentFile
import CallWeight.OrderedMap

/-! # Files in memory

A tree of files with a working directory, on which command lines can be tried without a disk. Places
are lists of names from the top. In the tree itself every name has its usual spelling.
-/

namespace CallWeight.CommandLine

inductive FileNode where
  | file (content : ByteArray)
  /-- What a directory holds under each name, no name twice. -/
  | directory (entries : List (Text × FileNode))

namespace FileNode

open OrderedMap

/-- What is at a place below a node. -/
def at? : FileNode → List Text → Option FileNode
  | node, [] => some node
  | .directory entries, name :: rest => (lookupIn name entries).bind fun node => node.at? rest
  | .file _, _ :: _ => none

/-- Put a node at a place, making the directories on the way. Nothing goes below a file. -/
def put (new : FileNode) : FileNode → List Text → FileNode
  | _, [] => new
  | .directory entries, name :: rest =>
      let old := (lookupIn name entries).getD (.directory [])
      .directory (insertIn name (put new old rest) entries)
  | .file content, _ :: _ => .file content

mutual
/-- All files below a node, each with its place. -/
def files : FileNode → List (List Text × ByteArray)
  | .file content => [([], content)]
  | .directory entries => filesIn entries
def filesIn : List (Text × FileNode) → List (List Text × ByteArray)
  | [] => []
  | (name, node) :: rest =>
      (node.files.map fun (place, content) => (name :: place, content)) ++ filesIn rest
end

end FileNode

/-- Why a file is not written. -/
inductive WriteFault where
  | refused (error : FileError)
  /-- More directories are missing than are made for one file. -/
  | tooDeep
  deriving Repr

structure FileTree where
  root : FileNode := .directory []
  /-- The working directory. -/
  here : List Text
  /-- The home directories of users by their names, one's own under no name. -/
  homes : OrderedMap Text (List Text) := .empty

/-- Where a path has led so far. -/
structure Position where
  /-- The names from the top, the last one first. -/
  names : List Text := []
  /-- The directories passed, the last one first. -/
  above : List FileNode := []
  /-- What is there. -/
  node : Option FileNode

namespace Position

def place (position : Position) : List Text := position.names.reverse

/-- Take one part from a directory: double dots lead one part back. -/
def enter (position : Position) (entries : List (Text × FileNode)) (part : Text) : Position :=
  if part = ".." then
    match position.above with
    | [] => position
    | parent :: above => { names := position.names.tail, above, node := some parent }
  else
    { names := part :: position.names
      above := .directory entries :: position.above
      node := OrderedMap.lookupIn (PathName.canonical part) entries }

/-- Follow the parts of a path. Only directories lead further, and only to names that are not too
    long. -/
def walk (position : Position) : List Text → Except FileFault Position
  | [] => .ok position
  | part :: rest =>
      match position.node with
      | none => .error .notFound
      | some (.file _) => .error .notDirectory
      | some (.directory entries) =>
          if PathName.byteLength part ≥ PathName.partLimit then .error .nameTooLong
          else (position.enter entries part).walk rest

end Position

namespace FileTree

def at? (tree : FileTree) (place : List Text) : Option FileNode :=
  tree.root.at? (place.map PathName.canonical)

def isFile (tree : FileTree) (place : List Text) : Bool :=
  match tree.at? place with
  | some (.file _) => true
  | _ => false

def isDirectory (tree : FileTree) (place : List Text) : Bool :=
  match tree.at? place with
  | some (.directory _) => true
  | _ => false

def put (tree : FileTree) (place : List Text) (node : FileNode) : FileTree :=
  { tree with root := node.put tree.root (place.map PathName.canonical) }

/-- Where a path leads. Whether anything is there is another question. -/
def locate (tree : FileTree) (path : PathName) : Except FileFault Position :=
  if PathName.byteLength path.text ≥ PathName.pathLimit then .error .nameTooLong
  else
    let start : Position := { node := some tree.root }
    start.walk (if path.isAbsolute then path.parts else tree.here ++ path.parts)

def read (tree : FileTree) (path : PathName) : FileContent :=
  let content : Except FileFault ByteArray := do
    match (← tree.locate path).node with
    | some (.file content) => return content
    | some (.directory _) => throw .isDirectory
    | none => throw .notFound
  content.mapError fun fault => { fault, path := path.text }

/-- Make one directory in a directory that is there. -/
def addDirectory (tree : FileTree) (place : List Text) : Except FileFault FileTree := do
  let position ← tree.locate (placeName place)
  match position.node with
  | some _ => throw .alreadyExists
  | none => return tree.put position.place (.directory [])

/-- Make a directory whose parent is not missing. One that is already there will do. -/
def ensureDirectory (tree : FileTree) (place : List Text) : Except WriteFault FileTree :=
  match tree.addDirectory place with
  | .ok tree => .ok tree
  | .error fault =>
      if tree.isDirectory place then .ok tree
      else .error (.refused { fault, path := (placeName place).text })

/-- The most missing directories that are made for one file. -/
def levelLimit : Nat := 987

/-- Make a directory, and those above it if the way to it is missing. The names come last one
    first; `room` is how many directories may still be tried. -/
def makeDirectory (tree : FileTree) : (room : Nat) → List Text → Except WriteFault FileTree
  | _, [] => .ok tree
  | 0, _ :: _ => .error .tooDeep
  | room + 1, name :: above =>
      let place := (name :: above).reverse
      match tree.addDirectory place with
      | .error .notFound => do (← tree.makeDirectory room above).ensureDirectory place
      | _ => tree.ensureDirectory place

/-- Write a file, making the directories that it needs. -/
def write (tree : FileTree) (path : PathName) (content : ByteArray) :
    Except WriteFault FileTree := do
  let place := path.resolve tree.here
  let tree ← tree.makeDirectory levelLimit place.dropLast.reverse
  let refuse (fault : FileFault) : WriteFault := .refused { fault, path := (placeName place).text }
  let position ← (tree.locate (placeName place)).mapError refuse
  match position.node with
  | some (.directory _) => throw (refuse .isDirectory)
  | _ => return tree.put position.place (.file content)

end FileTree

end CallWeight.CommandLine
