import DocPlan.FilePath.Order
import DocPlan.FileSystem.Walk
import DocPlan.Glob.Pattern

/-!
# The directories that a pattern lists

A pattern is followed component by component from the root or from the working
directory. A component without wildcards is joined as it is, so `.` and `..`
and an empty component stay in the spelling of the path. A component with wildcards
is compared with the names in the directory that are texts; only if it begins with
a literal dot is it also compared with `.` and `..`. A component `**` goes down any
number of directories, links included, whatever their names.

`Glob.directories` gives the directories in the order in which the components
find them, names in the order of their bytes.
-/

namespace DocPlan.Glob

/-- A component of a pattern, as it is used to list directories. -/
inductive Part where
  | literal (name : FileName)
  | wild (tokens : List Token)
  | anyDepth
  deriving DecidableEq, Repr

/-- The text that tokens spell when none of them is a wildcard. -/
def literal? : List Token → Option (List Char)
  | [] => some []
  | .char c :: rest => (literal? rest).map (c :: ·)
  | _ :: _ => none

def Part.ofTokens (tokens : List Token) : Part :=
  match literal? tokens with
  | some text => .literal text
  | none => if tokens.contains .anyDepth then .anyDepth else .wild tokens

/-- Whether tokens stand for a name; one that is no text is not looked at. -/
def acceptsName (tokens : List Token) (name : FileName) : Bool :=
  (Utf8.decode? name).any (accepts tokens)

/-- Whether a part accepts a name; a literal part accepts itself. -/
def Part.acceptsName (name : FileName) : Part → Bool
  | .literal own => own = name
  | .wild tokens => Glob.acceptsName tokens name
  | .anyDepth => true

/-- Leaves one of several `**` that follow each other. -/
def collapseDepth : List Part → List Part
  | [] => []
  | .anyDepth :: rest =>
    match collapseDepth rest with
    | .anyDepth :: others => .anyDepth :: others
    | others => .anyDepth :: others
  | part :: rest => part :: collapseDepth rest

/-- The components of a pattern, without the last one if it is empty. -/
def componentTexts (pattern : List Char) : List (List Char) :=
  let texts := Text.segments '/' pattern
  if texts.getLast? = some [] then texts.dropLast else texts

/-- The parts of a pattern seen from its root or from the working directory. A
pattern without components asks for the place itself. -/
def parts (pattern : List Char) : Except PatternError (List Part) :=
  let body := if Text.isRooted '/' pattern then pattern.drop 1 else pattern
  if body.isEmpty then .ok [.literal []]
  else do
    let tokens ← (componentTexts body).mapM compile
    return collapseDepth (tokens.map Part.ofTokens)

/-- The path of a name in a directory; names in the working directory stand on
their own. -/
def child (path : FilePath) (name : FileName) : FilePath :=
  if path.same (.ofString ".") then ⟨name⟩ else path.join ⟨name⟩

/-- The directories in a directory, by name. -/
def subdirectories (fs : FileSystem) (path : FilePath) : List (FileName × FilePath) :=
  let names := (fs.list path).mergeSort Text.bytesLe
  (names.map fun name => (name, child path name)).filter fun entry => fs.isDirectory entry.2

/-- `.` and `..`, as far as a component names them. -/
def specialEntries (fs : FileSystem) (tokens : List Token) (path : FilePath) :
    List FilePath :=
  match tokens with
  | .char '.' :: _ =>
    let named := ["..", "."].filter fun text => accepts tokens text.toList
    (named.map fun text => path.join (.ofString text)).filter fs.isDirectory
  | _ => []

/-- Goes down all directories below a path, at most so many levels, and collects
what each of them gives. -/
def below (fs : FileSystem) (give : FileName → FilePath → List FilePath) :
    (depth : Nat) → FilePath → List FilePath
  | 0, _ => []
  | depth + 1, path =>
    (subdirectories fs path).flatMap fun entry =>
      give entry.1 entry.2 ++ below fs give depth entry.2

/-- The directories that parts list below a path. No path that leads to a
directory has more components than bytes, which bounds the way down. -/
def listFrom (fs : FileSystem) : List Part → FilePath → List FilePath
  | [], path => [path]
  | .literal name :: rest, path =>
    let next := child path name
    if fs.isDirectory next then listFrom fs rest next else []
  | .wild tokens :: rest, path =>
    let named := (subdirectories fs path).filter fun entry => acceptsName tokens entry.1
    (specialEntries fs tokens path ++ named.map (·.2)).flatMap (listFrom fs rest)
  | [.anyDepth], path =>
    below fs (fun _ directory => [directory]) FileSystem.pathLimit path
  | .anyDepth :: part :: rest, path =>
    below fs
      (fun name directory => if part.acceptsName name then listFrom fs rest directory else [])
      FileSystem.pathLimit path

/-- The directories that a pattern lists. -/
def directories (fs : FileSystem) (pattern : List Char) :
    Except PatternError (List FilePath) := do
  let _ ← compile pattern
  let parts ← parts pattern
  let start : FilePath := if Text.isRooted '/' pattern then .ofString "/" else .ofString "."
  return listFrom fs parts start

end DocPlan.Glob
