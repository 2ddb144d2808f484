import DocPlan.Entry.Set
import DocPlan.Exports.Conditions
import DocPlan.Exports.Table
import DocPlan.FilePath.Lexical
import DocPlan.Manifest.Locate

/-!
# Collecting entry points

The candidates of a package are its resolved exports. A package without any has
one more candidate under the condition `types`: the file of its field `types`,
or else of its field `typings`.

A candidate is admitted when it has the ending of a source or declaration file
and exists. One with a `*` is a pattern that is passed on as it is. Under the
condition `types` a candidate without declarations is reported, and kept or
dropped as the policy says.
-/

namespace DocPlan

/-- What to do with a file without declarations under the condition `types`. -/
inductive DeclarationPolicy where
  | warnAndInclude
  | exclude
  deriving DecidableEq, Repr

namespace DeclarationPolicy

def name : DeclarationPolicy → String
  | .warnAndInclude => "warnAndInclude"
  | .exclude => "exclude"

def all : List DeclarationPolicy := [.warnAndInclude, .exclude]

/-- The policy that a value names. -/
def ofJson? : Json → Option DeclarationPolicy :=
  Json.choice? (all.map fun policy => (policy.name, policy))

end DeclarationPolicy

namespace Entry

/-- A path that may become an entry point, and where it was named. -/
structure Candidate where
  origin : String
  path : FilePath

/-- What a run asks of its entry points. -/
structure Demand where
  condition : String
  policy : DeclarationPolicy

/-- The first of the fields that name a file with types. -/
def typesField? (manifest : Manifest) : Option (String × String) :=
  match manifest.types, manifest.typings with
  | some file, _ => some ("types", file)
  | none, some file => some ("typings", file)
  | none, none => none

/-- The candidate that stands in for missing exports. -/
def fallbackCandidates (manifest : Manifest) (condition : String) : Noted (List Candidate) :=
  if condition = typesCondition then
    match typesField? manifest with
    | some (field, file) => do
      Noted.info "TYPES_FALLBACK" s!"{manifest.label} has no usable exports; using \"{field}\""
      return [⟨s!"\"{field}\"", manifest.directory.absolutize (FilePath.ofString file)⟩]
    | none => pure []
  else pure []

/-- The candidates of a package. -/
def candidates (manifest : Manifest) (exports : ExportTable) (condition : String) :
    Noted (List Candidate) :=
  if exports.isEmpty then fallbackCandidates manifest condition
  else pure (exports.entries.map fun entry => ⟨s!"exports[\"{entry.1}\"]", entry.2⟩)

/-- Admits a candidate without asking for declarations: a pattern as it is, any
other path if the file exists. -/
def admitExisting (fs : FileSystem) (candidate : Candidate) : Noted Bool := do
  if isPattern candidate.path then
    Noted.info "ENTRY_PATTERN_UNEXPANDED"
      s!"{candidate.origin} is a pattern; passing {candidate.path} through"
    return true
  else if fs.isFile candidate.path then return true
  else
    Noted.warn "ENTRY_NOT_FOUND"
      s!"{candidate.origin} references a missing file: {candidate.path}"
    return false

/-- Whether a candidate becomes an entry point. -/
def admits (fs : FileSystem) (demand : Demand) (candidate : Candidate) : Noted Bool := do
  if !isPattern candidate.path && !isAllowed candidate.path then
    Noted.warn "ENTRY_UNSUPPORTED_EXTENSION"
      s!"{candidate.origin} references {candidate.path}, which is not a source or declaration file"
    return false
  else if demand.condition = typesCondition ∧ !yieldsDeclarations candidate.path then
    Noted.warn "INVALID_DECLARATION_FILE"
      s!"property {candidate.origin} does not reference a declaration file: {candidate.path}"
    if demand.policy = .exclude then return false
    else admitExisting fs candidate
  else admitExisting fs candidate

/-- Adds a candidate to a set of entry points, if it is admitted. -/
def addCandidate (fs : FileSystem) (demand : Demand) (set : EntrySet)
    (candidate : Candidate) : Noted EntrySet := do
  if ← admits fs demand candidate then
    Noted.info "ENTRY_POINT" s!"entry point {candidate.path}"
    return set.insert candidate.path
  else return set

/-- The candidates that are admitted. -/
def admitted (fs : FileSystem) (demand : Demand) (found : List Candidate) : Noted EntrySet :=
  found.foldlM (addCandidate fs demand) EntrySet.empty

/-- The entry points of a package. -/
def collect (fs : FileSystem) (manifest : Manifest) (exports : ExportTable)
    (demand : Demand) : Report EntrySet := do
  let found ← candidates manifest exports demand.condition
  let set ← admitted fs demand found
  if set.isEmpty then Report.fail (.noEntryPoints manifest.path demand.condition)
  else return set

end Entry

end DocPlan
