import DocPlan.CompilerOptions.Check
import DocPlan.Config.Files
import DocPlan.Request
import DocPlan.Text.Order

/-!
# Options from several sources

Compiler options come from up to four sources, the later ones going before: the
compiler configuration file, the options embedded in the generator's
configuration file, those embedded in the request's generator options, and the
request's own. They are put on one another in that order; an option that ends up
null is unset (`Options.unsetNames`), and only the values that are left are
checked.

Generator options come from the generator's configuration file and from the
request. The ones that a configuration derives itself are reported and ignored.
-/

namespace DocPlan

/-- The files of a run and the directory that a request is seen from. -/
structure Site where
  files : FileSystem
  directory : FilePath

namespace Options

/-- Generator options that a configuration derives itself. -/
def reservedKeys : List String := ["entryPoints", "out", "tsconfig", "plugin"]

/-- Generator options found so far, and the sources of compiler options. -/
structure Gathered where
  typedoc : Members
  sources : List Members

namespace Gathered

def empty : Gathered := ⟨[], []⟩

def addSource (gathered : Gathered) (source : Members) : Gathered :=
  { gathered with sources := gathered.sources ++ [source] }

/-- Adds compiler options embedded in generator options. -/
def addEmbedded (origin : String) (gathered : Gathered) : Json → Except Error Gathered
  | .object members => .ok (gathered.addSource members)
  | .null => .ok gathered
  | other =>
    .error (.invalidField origin
      s!"\"compilerOptions\" must be an object, found {other.kind}")

/-- Adds one member of the generator options of an origin. -/
def addMember (origin : String) (gathered : Gathered) (member : String × Json) :
    Report Gathered :=
  if member.1 = "compilerOptions" then
    Report.ofExcept (gathered.addEmbedded origin member.2)
  else if member.1 ∈ reservedKeys then do
    Noted.warn "TYPEDOC_OPTION_OVERRIDDEN"
      s!"{origin} sets \"{member.1}\", which dtsdoc derives itself; ignoring it"
    return gathered
  else pure { gathered with typedoc := Keyed.put member.1 member.2 gathered.typedoc }

/-- Adds the generator options of an origin. -/
def addMembers (origin : String) (gathered : Gathered) (members : Members) : Report Gathered :=
  members.foldlM (addMember origin) gathered

/-- The compiler options of all sources on one another. -/
def merged (gathered : Gathered) : Members :=
  gathered.sources.foldl Keyed.overlay []

end Gathered

/-- The options that are null, in order. -/
def unsetNames (options : Members) : List String :=
  Text.sorted ((options.filter (·.2.isNull)).map (·.1))

/-- Adds the options of the compiler configuration file, if there is one. -/
def addTsconfig (fs : FileSystem) (tsconfig : Option FilePath) (gathered : Gathered) :
    Except Error Gathered :=
  match tsconfig with
  | none => .ok gathered
  | some path => (ConfigFile.compilerOptions fs path).map gathered.addSource

/-- Adds the generator's configuration file, if there is one. -/
def addTypedocFile (fs : FileSystem) (typedocJson : Option FilePath) (gathered : Gathered) :
    Report Gathered :=
  match typedocJson with
  | none => pure gathered
  | some path => do
    let members ← ConfigFile.readObject fs path
    gathered.addMembers "typedocJson" members

/-- Adds the generator options of a request. -/
def addTypedocOptions (request : Request) (gathered : Gathered) : Report Gathered :=
  match request.typedocOptions with
  | none => pure gathered
  | some members => gathered.addMembers "typedocOptions" members

/-- Adds the compiler options of a request. -/
def addCompilerOptions (request : Request) (gathered : Gathered) : Gathered :=
  match request.compilerOptions with
  | none => gathered
  | some members => gathered.addSource members

/-- All options of a request and its files. -/
def gather (fs : FileSystem) (request : Request) (tsconfig typedocJson : Option FilePath) :
    Report Gathered := do
  let gathered ← addTsconfig fs tsconfig .empty
  let gathered ← addTypedocFile fs typedocJson gathered
  let gathered ← addTypedocOptions request gathered
  return addCompilerOptions request gathered

/-- Compiler options after the check: those to use and those to unset. -/
structure Checked where
  used : Members
  unset : List String

/-- Checks the merged compiler options. -/
def check (checker : CompilerOptions.Checker) (merged : Members) : Report Checked := do
  match ← checker merged with
  | .ok used => return ⟨used, unsetNames merged⟩
  | .error problems => Report.fail (.invalidCompilerOptions problems)

end Options

end DocPlan
