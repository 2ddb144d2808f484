import DocPlan.FilePath.Lexical
import DocPlan.FileSystem.Basic

/-!
# Following a path

A walk keeps the nodes on its way from the root, the innermost first, so that
`..` is one step back. Each name but the last must lead to a directory, and a
link is replaced by the steps of its target; at most forty links are followed.
A separator at the end of a path asks for a directory, like a `.` there.

`FileSystem.locate` gives the place a path leads to; `isFile`, `isDirectory`,
`read` and `canonical?` are questions about that place.
-/

namespace DocPlan

/-- One step of a walk. -/
inductive WalkStep where
  | stay
  | back
  | into (name : FileName)
  deriving DecidableEq, Repr

/-- A place in a tree: the names and nodes on the way to it, innermost first. -/
structure Place where
  root : Node
  trail : List (FileName × Node)

namespace Place

/-- The node at a place. -/
def node (place : Place) : Node :=
  match place.trail with
  | [] => place.root
  | (_, node) :: _ => node

/-- The names that lead to a place from the root. -/
def names (place : Place) : List FileName :=
  (place.trail.map (·.1)).reverse

end Place

namespace FileSystem

/-- The most links that one walk follows. -/
def linkLimit : Nat := 40

/-- The most bytes in a name. -/
def nameLimit : Nat := 255

/-- The most bytes in a path. -/
def pathLimit : Nat := 4095

/-- The step that a segment of a path asks for. -/
def stepOf (segment : List UInt8) : WalkStep :=
  if segment = [] ∨ segment = [FilePath.dot] then .stay
  else if segment = [FilePath.dot, FilePath.dot] then .back
  else .into segment

/-- The steps of a path that is not empty. -/
def steps (path : List UInt8) : List WalkStep :=
  match Text.segments FilePath.separator path with
  | [] => []
  | head :: body => (if head = [] then [] else [stepOf head]) ++ body.map stepOf

/-- Takes steps from a place; `follow` goes on at a link, from the place the
link's target is seen from. -/
def walkWith (follow : Place → List WalkStep → Except FileError Place) :
    List WalkStep → Place → Except FileError Place
  | [], place => .ok place
  | step :: rest, place =>
    match place.node with
    | .directory entries =>
      match step with
      | .stay => walkWith follow rest place
      | .back => walkWith follow rest { place with trail := place.trail.drop 1 }
      | .into name =>
        if nameLimit < name.length then .error .nameTooLong
        else
          match Node.lookup name entries with
          | none => .error .notFound
          | some (.link target) =>
            let start : Place :=
              if Text.isRooted FilePath.separator target then { place with trail := [] } else place
            follow start (steps target ++ rest)
          | some node => walkWith follow rest { place with trail := (name, node) :: place.trail }
    | _ => .error .notDirectory

/-- Takes steps from a place, following at most so many links. -/
def walk : (links : Nat) → Place → List WalkStep → Except FileError Place
  | 0, place, steps => walkWith (fun _ _ => .error .tooManyLinks) steps place
  | links + 1, place, steps => walkWith (walk links) steps place

/-- The place of a list of names, none of which is a link. -/
def descend : List FileName → Place → Place
  | [], place => place
  | name :: rest, place =>
    match Node.lookup name place.node.entries with
    | some node => descend rest { place with trail := (name, node) :: place.trail }
    | none => place

/-- The place from which a path is seen. -/
def startOf (fs : FileSystem) (path : FilePath) : Place :=
  let top : Place := ⟨fs.root, []⟩
  if path.isAbsolute then top else descend fs.workingDirectory top

/-- The place that a path leads to. -/
def locate (fs : FileSystem) (path : FilePath) : Except FileError Place :=
  if path.bytes.contains 0 then .error .nulInPath
  else if path.bytes.isEmpty then .error .notFound
  else if pathLimit < path.bytes.length then .error .nameTooLong
  else walk linkLimit (fs.startOf path) (steps path.bytes)

/-- The node that a path leads to. -/
def node? (fs : FileSystem) (path : FilePath) : Option Node :=
  match fs.locate path with
  | .ok place => some place.node
  | .error _ => none

/-- Whether a path leads to a regular file. -/
def isFile (fs : FileSystem) (path : FilePath) : Bool :=
  match fs.node? path with
  | some node => node.isFile
  | none => false

/-- Whether a path leads to a directory. -/
def isDirectory (fs : FileSystem) (path : FilePath) : Bool :=
  match fs.node? path with
  | some node => node.isDirectory
  | none => false

/-- The names in the directory that a path leads to. -/
def list (fs : FileSystem) (path : FilePath) : List FileName :=
  match fs.node? path with
  | some node => node.entries.map (·.1)
  | none => []

/-- The bytes of the file that a path leads to. -/
def readBytes (fs : FileSystem) (path : FilePath) : Except FileError (List UInt8) := do
  let place ← fs.locate path
  match place.node with
  | .file content => .ok content
  | .locked => .error .permissionDenied
  | _ => .error .isDirectory

/-- The text of the file that a path leads to, without a byte order mark and
with replacement characters for what is not UTF-8. -/
def readText (fs : FileSystem) (path : FilePath) : Except FileError String := do
  let bytes ← fs.readBytes path
  return String.ofList (Utf8.dropByteOrderMark (Utf8.decodeLossy bytes))

/-- The path of the place that a path leads to, without links. -/
def canonical? (fs : FileSystem) (path : FilePath) : Option FilePath :=
  match fs.locate path with
  | .ok place => some (FilePath.ofNames true place.names)
  | .error _ => none

/-- The path of the working directory. -/
def workingPath (fs : FileSystem) : FilePath :=
  FilePath.ofNames true fs.workingDirectory

end FileSystem

end DocPlan
