import DocPlan.FilePath.Lexical
import DocPlan.FileSystem.Walk
import DocPlan.Json.Comments
import DocPlan.Json.Reader
import DocPlan.Error

/-!
# Configuration files

A configuration file is a JSON object that may hold comments and trailing
commas. A compiler configuration may extend others: the options of each base are
put down first, in order, and then the file's own (`ConfigFile.compilerOptions`).
Only bases that begin with a dot are followed. A chain of files that extend each
other may neither come back to one of its files nor hold more than sixteen.
-/

namespace DocPlan.ConfigFile

/-- The most files in a chain. -/
def chainLimit : Nat := 16

/-- The object in a configuration file. -/
def readObject (fs : FileSystem) (path : FilePath) : Except Error Members :=
  match fs.readText path with
  | .error cause => .error (.configUnreadable path cause)
  | .ok source =>
    match Json.read (Json.Comments.strip source) with
    | .error reason => .error (.configInvalid path reason)
    | .ok (.object members) => .ok members
    | .ok other =>
      .error (.configInvalid path s!"top level must be an object, found {other.kind}")

/-- The names of the bases in a list. -/
def baseNames (path : FilePath) : List Json → Except Error (List String)
  | [] => .ok []
  | .string base :: rest => (baseNames path rest).map (base :: ·)
  | other :: _ =>
    .error (.configInvalid path s!"\"extends\" entries must be strings, found {other.kind}")

/-- The names of the bases of a configuration. -/
def extendsNames (path : FilePath) (config : Members) : Except Error (List String) :=
  match Keyed.get? "extends" config with
  | none => .ok []
  | some .null => .ok []
  | some (.string base) => .ok [base]
  | some (.array items) => baseNames path items
  | some other =>
    .error (.configInvalid path
      s!"\"extends\" must be a string or an array, found {other.kind}")

/-- Whether a base is named by a relative path. -/
def isRelativeBase (base : String) : Bool := base.toList.head? = some '.'

/-- The file of a base, seen from a directory. -/
def basePath (directory : FilePath) (base : String) : FilePath :=
  (directory.absolutize (FilePath.ofString base)).withDefaultExtension "json"

/-- The files of the relative bases of a configuration. -/
def bases (path : FilePath) (config : Members) : Except Error (List FilePath) :=
  let directory := path.parent?.getD (FilePath.ofString ".")
  (extendsNames path config).map fun names =>
    (names.filter isRelativeBase).map (basePath directory)

/-- A member that must be an object; null is like no member. -/
def objectMember (path : FilePath) (config : Members) (field : String) :
    Except Error Members :=
  match Keyed.get? field config with
  | none => .ok []
  | some .null => .ok []
  | some (.object members) => .ok members
  | some other =>
    .error (.configInvalid path s!"\"{field}\" must be an object, found {other.kind}")

/-- Puts the options of a file and its bases on others. `opened` are the files
of the chain so far and `room` is how many more it may hold. -/
def addOptions (fs : FileSystem) (room : Nat) (opened : List FilePath) (merged : Members)
    (path : FilePath) : Except Error Members :=
  if opened.any (·.same path) then .error (.configInvalid path "circular \"extends\"")
  else
    match room with
    | 0 => .error (.configInvalid path s!"\"extends\" chain deeper than {chainLimit}")
    | room + 1 => do
      let config ← readObject fs path
      let files ← bases path config
      let merged ← files.foldlM (addOptions fs room (path :: opened)) merged
      let options ← objectMember path config "compilerOptions"
      return Keyed.overlay merged options

/-- The compiler options of a configuration file and its bases. -/
def compilerOptions (fs : FileSystem) (path : FilePath) : Except Error Members :=
  addOptions fs chainLimit [] [] path

end DocPlan.ConfigFile
