import DocPlan.Glob.Listing
import DocPlan.Manifest.Locate

/-!
# The members of a workspace

A root manifest lists its members by patterns. A pattern that begins with `!`
excludes directories; all others list them, one pattern after the other, each
in the order of paths. A member is a directory with a manifest, listed by some
pattern and excluded by none.

Patterns are seen from the root's directory, whose own name never acts as a
pattern (`Workspaces.rooted`).
-/

namespace DocPlan.Workspaces

def invalid (reason : String) : Error := .invalidField "workspaces" reason

/-- The patterns' values, from either form of the field. -/
def patternValues : Json → Except Error (List Json)
  | .array items => .ok items
  | .object members =>
    match Keyed.get? "packages" members with
    | some (.array items) => .ok items
    | _ => .error (invalid "object form must have a \"packages\" array")
  | other => .error (invalid s!"expected an array or object, found {other.kind}")

/-- A pattern seen from a root, which is spelled as it is shown. -/
def rooted (root : FilePath) (pattern : String) : List Char :=
  (FilePath.join ⟨Glob.escape root.chars⟩ (FilePath.ofString pattern)).chars

def badPattern (pattern : String) (error : Glob.PatternError) : Error :=
  invalid s!"bad pattern \"{pattern}\": {error.message}"

/-- The patterns of a workspace: those that list directories, and the tokens of
those that exclude them. -/
structure Patterns where
  includes : List String
  excludes : List (List Glob.Token)

/-- Adds one pattern. -/
def Patterns.add (root : FilePath) (patterns : Patterns) (value : Json) :
    Except Error Patterns :=
  match value with
  | .string text =>
    match text.toList with
    | '!' :: negated =>
      let pattern := String.ofList negated
      match Glob.compile (rooted root pattern) with
      | .ok tokens => .ok { patterns with excludes := patterns.excludes ++ [tokens] }
      | .error error => .error (badPattern pattern error)
    | _ => .ok { patterns with includes := patterns.includes ++ [text] }
  | other => .error (invalid s!"patterns must be strings, found {other.kind}")

def Patterns.ofValues (root : FilePath) (values : List Json) : Except Error Patterns :=
  values.foldlM (Patterns.add root) ⟨[], []⟩

/-- The directories that a pattern lists, in the order of paths. -/
def listed (fs : FileSystem) (root : FilePath) (pattern : String) :
    Except Error (List FilePath) :=
  match Glob.directories fs (rooted root pattern) with
  | .ok directories => .ok (directories.mergeSort FilePath.le)
  | .error error => .error (badPattern pattern error)

/-- Whether one of the excluding patterns matches a directory. None matches a
path that is no text. -/
def excluded (patterns : Patterns) (directory : FilePath) : Bool :=
  directory.text?.any fun text => patterns.excludes.any (Glob.accepts · text)

/-- Adds the member in a directory to those before it. -/
def addMember (fs : FileSystem) (patterns : Patterns) (members : List FilePath)
    (directory : FilePath) : Noted (List FilePath) := do
  let manifest := directory.join manifestName
  if !fs.isFile manifest || members.any (·.same manifest) || excluded patterns directory then
    return members
  else
    Noted.info "WORKSPACE_MEMBER" s!"workspace member {manifest}"
    return members ++ [manifest]

/-- Adds the members in directories. -/
def addMembers (fs : FileSystem) (patterns : Patterns) (members directories : List FilePath) :
    Noted (List FilePath) :=
  directories.foldlM (addMember fs patterns) members

/-- Adds the members that a pattern lists. -/
def addListed (fs : FileSystem) (root : FilePath) (patterns : Patterns)
    (members : List FilePath) (pattern : String) : Report (List FilePath) := do
  let directories ← listed fs root pattern
  addMembers fs patterns members directories

/-- The manifests of the members of a workspace; none when the manifest declares
no workspace. -/
def members (fs : FileSystem) (root : Manifest) : Report (Option (List FilePath)) :=
  match Keyed.get? "workspaces" root.raw with
  | none => pure none
  | some field => do
    let values ← patternValues field
    let patterns ← Patterns.ofValues root.directory values
    let found ← patterns.includes.foldlM (addListed fs root.directory patterns) []
    return some found

end DocPlan.Workspaces
