import DocPlan.FilePath.Basic

/-!
# Files, directories and links

A file system is a tree of nodes and the directory from which relative paths
are seen. `FileError` lists why a path may not lead to a file; its texts are
those of the operating system.
-/

namespace DocPlan

inductive Node where
  /-- A regular file. -/
  | file (content : List UInt8)
  /-- A regular file that may not be read. -/
  | locked
  | directory (entries : List (FileName × Node))
  /-- A symbolic link; a relative target is seen from the link's directory. -/
  | link (target : List UInt8)
  deriving Inhabited

/-- Why a path does not lead to what was asked for. -/
inductive FileError where
  | notFound
  | permissionDenied
  | notDirectory
  | isDirectory
  | nameTooLong
  | tooManyLinks
  | nulInPath
  deriving DecidableEq, Repr

namespace FileError

def message : FileError → String
  | .notFound => "No such file or directory (os error 2)"
  | .permissionDenied => "Permission denied (os error 13)"
  | .notDirectory => "Not a directory (os error 20)"
  | .isDirectory => "Is a directory (os error 21)"
  | .nameTooLong => "File name too long (os error 36)"
  | .tooManyLinks => "Too many levels of symbolic links (os error 40)"
  | .nulInPath => "file name contained an unexpected NUL byte"

/-- The error with a number of the operating system. -/
def ofNumber? : Nat → Option FileError
  | 2 => some .notFound
  | 13 => some .permissionDenied
  | 20 => some .notDirectory
  | 21 => some .isDirectory
  | 36 => some .nameTooLong
  | 40 => some .tooManyLinks
  | _ => none

end FileError

namespace Node

def emptyDirectory : Node := .directory []

def isDirectory : Node → Bool
  | .directory _ => true
  | _ => false

def isFile : Node → Bool
  | .file _ => true
  | .locked => true
  | _ => false

/-- The node of a name among the entries of a directory. -/
def lookup (name : FileName) : List (FileName × Node) → Option Node
  | [] => none
  | (other, node) :: rest => if other = name then some node else lookup name rest

/-- The entries of a directory; none for other nodes. -/
def entries : Node → List (FileName × Node)
  | .directory entries => entries
  | _ => []

/-- The entries with the node of a name replaced, or added at the end. -/
def insertEntry (name : FileName) (node : Node) :
    List (FileName × Node) → List (FileName × Node)
  | [] => [(name, node)]
  | (other, old) :: rest =>
    if other = name then (name, node) :: rest else (other, old) :: insertEntry name node rest

/-- Puts a node at the end of a list of names, making directories on the way. -/
def insertAt (node : Node) : List FileName → Node → Node
  | [], _ => node
  | name :: rest, parent =>
    let child := (lookup name parent.entries).getD emptyDirectory
    .directory (insertEntry name (insertAt node rest child) parent.entries)

/-- Takes away the node at the end of a list of names. -/
def eraseAt : List FileName → Node → Node
  | [], node => node
  | [name], parent => .directory (parent.entries.filter (·.1 ≠ name))
  | name :: rest, parent =>
    match lookup name parent.entries with
    | none => parent
    | some child => .directory (insertEntry name (eraseAt rest child) parent.entries)

end Node

/-- A tree of files and the directory that relative paths are seen from, as the
names that lead to it from the root. -/
structure FileSystem where
  root : Node
  workingDirectory : List FileName

end DocPlan
