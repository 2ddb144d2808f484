import DocPlan.CommandLine.Run

/-!
# The program

A run sees the files as they are when it starts: a tree is read from the disk
first, and the command line is run on it. The tree holds everything in the
packages around the working directory and around each directory that the command
line names, and of every directory above these what stands in it.

Names and arguments are read as texts here, so that `CommandLine.run` is what runs.

A file that is a source file by its name, or larger than any configuration, is
there in the tree but its content is not read. A file that may not be read is
there without a content.
-/

namespace DocPlan.Snapshot

/-- The most bytes of a file that is read. -/
def contentLimit : Nat := 1048576

/-- The names that lead to an absolute path. -/
def namesOf (text : String) : List FileName :=
  (FilePath.segments text.toList).filter (!FilePath.isNoise ·)

/-- A list of names and every list that it continues, the shortest first. -/
def leadingNames (names : List FileName) : List (List FileName) :=
  (List.range (names.length + 1)).map names.take

/-- The absolute path of a list of names. -/
def textOf (names : List FileName) : String :=
  (FilePath.ofNames true names).toString

/-- The node of a file. -/
def fileNode (entry : IO.FS.DirEntry) (size : Nat) : IO Node := do
  if contentLimit < size || Entry.isAllowed (FilePath.ofString entry.fileName) then
    return .file []
  else
    try
      let content ← IO.FS.readBinFile entry.path
      return .file content.toList
    catch _ => return .locked

mutual

/-- The nodes of a directory; those below them only if `deep`. -/
partial def directoryNode (deep : Bool) (directory : String) : IO Node := do
  let here ← IO.currentDir
  let entries ← (here / directory).readDir
  let nodes ← entries.toList.mapM (entryNode deep)
  return .directory nodes.flatten

/-- What stands in a directory under a name; nothing if it cannot be found. -/
partial def entryNode (deep : Bool) (entry : IO.FS.DirEntry) :
    IO (List (FileName × Node)) := do
  let name := entry.fileName.toList
  try
    let itself ← entry.path.symlinkMetadata
    let found ← entry.path.metadata
    match itself.type, found.type with
    | _, .file => return [(name, ← fileNode entry found.byteSize.toNat)]
    | .symlink, .dir =>
      let target ← IO.FS.realPath entry.path
      return [(name, .link target.toString.toList)]
    | .dir, _ =>
      if deep then return [(name, ← directoryNode true entry.path.toString)]
      else return [(name, .emptyDirectory)]
    | _, _ => return []
  catch _ => return []

end

/-- The names that lead to a place without links, and whether it is a directory. -/
def locate? (text : String) : IO (Option (Bool × List FileName)) := do
  try
    let here ← IO.currentDir
    let place ← IO.FS.realPath (here / text)
    let found ← place.metadata
    return some (found.type == .dir, namesOf place.toString)
  catch _ => return none

/-- The directories on the way to a path, links on that way followed. -/
def directoriesTo (text : String) : IO (List (List FileName)) := do
  let here ← IO.currentDir
  let names := namesOf (here / text).toString
  let places ← (leadingNames names).mapM fun leading => locate? (textOf leading)
  return (places.filterMap fun place =>
    match place with
    | some (true, names) => some (leadingNames names)
    | some (false, _) => none
    | none => none).flatten

/-- The directory that a path leads to, if it is one. -/
def directoryAt (text : String) : IO (List (List FileName)) := do
  match ← locate? text with
  | some (true, names) => return [names]
  | _ => return []

/-- The directory of the package around a directory, or the directory itself. -/
def packageAround (root : Node) (names : List FileName) : List FileName :=
  let manifest := Manifest.find? ⟨root, names⟩ (FilePath.ofString (textOf names))
  match manifest.bind FilePath.parent? with
  | some directory => namesOf directory.toString
  | none => names

/-- Puts directories into a tree, one after the other. -/
def addDirectories (deep : Bool) (root : Node) (directories : List (List FileName)) :
    IO Node :=
  directories.foldlM (fun root names => do
    let node ← directoryNode deep (textOf names)
    return Node.insertAt node names root) root

/-- Reads the directories that lead to some paths, and all that is in the
packages there. -/
def read (paths : List String) : IO Node := do
  let above := ((← paths.mapM directoriesTo).flatten.eraseDups).mergeSort
    fun a b => a.length ≤ b.length
  let root ← addDirectories false .emptyDirectory above
  let named := (← paths.mapM directoryAt).flatten
  addDirectories true root (named.map (packageAround root)).eraseDups

end DocPlan.Snapshot

namespace DocPlan.CommandLine

/-- The paths that a command line names. -/
def namedPaths (environment : Option String) (texts : List String) : List String :=
  match Command.ofWords (environment.map Word.ofText) (texts.map Word.ofText) with
  | .ok (.generate arguments) =>
    let base := arguments.directory.getD (FilePath.ofString ".")
    let files :=
      [arguments.path, arguments.request, arguments.tsconfig, arguments.typedocJson]
    (base :: (files.filterMap id).map base.join).map FilePath.toString
  | _ => []

/-- The line of an event in the log. -/
def logLine (json : Bool) (event : LogEvent) : String :=
  if json then event.toJson.compact else event.text

end DocPlan.CommandLine

open DocPlan in
/-- Runs a command line and gives its status. -/
def main (texts : List String) : IO UInt32 := do
  let here ← IO.FS.realPath (← IO.currentDir)
  let environment ← IO.getEnv "DTSDOC_CWD"
  let root ← Snapshot.read (here.toString :: CommandLine.namedPaths environment texts)
  let files : FileSystem := ⟨root, Snapshot.namesOf here.toString⟩
  match CommandLine.run files environment texts with
  | .misused error =>
    IO.eprintln s!"error: {error.message}"
    return 2
  | .finished status printed json log =>
    for event in log do
      IO.eprintln (CommandLine.logLine json event)
    IO.print printed
    return UInt32.ofNat status
