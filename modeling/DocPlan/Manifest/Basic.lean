import DocPlan.Exports.Basic
import DocPlan.FilePath.Basic
import DocPlan.Report

/-!
# Package manifests

A manifest is kept as the value of its text. The fields that a run reads are taken
from the text itself, each from its own member of the top level, which may stand
there only once. So the exports keep repeated keys, which a plain value forgets.
-/

namespace DocPlan

/-- The name of a manifest file. -/
def manifestName : FilePath := FilePath.ofString "package.json"

structure Manifest where
  /-- The directory that the targets of the exports are seen from. -/
  directory : FilePath
  path : FilePath
  name : Option String
  exports : Option Exports
  types : Option String
  typings : Option String
  /-- The whole document. -/
  raw : Members

namespace Manifest

/-- The top-level fields that a run reads. -/
def fieldNames : List String := ["name", "exports", "types", "typings"]

/-- The first key that repeats a field, given the keys before. -/
def repeatedField? : (seen : List String) → List Json.Key → Option Json.Key
  | _, [] => none
  | seen, key :: rest =>
    if key.text ∈ fieldNames ∧ key.text ∈ seen then some key
    else repeatedField? (key.text :: seen) rest

/-- The member of a field, as it was written. -/
def fieldDocument? (members : List (Json.Key × Json.Document)) (field : String) :
    Option Json.Document :=
  (members.find? (·.1.text = field)).map (·.2)

/-- The value of a field, read from its own member. -/
def fieldValue? (members : List (Json.Key × Json.Document)) (field : String) : Option Json :=
  (fieldDocument? members field).map (·.toJson)

/-- The text that a field holds. Null is like no field; any other value is reported
and ignored. -/
def textField (path : FilePath) (field : String) (value : Option Json) :
    Noted (Option String) :=
  match value with
  | none => pure none
  | some .null => pure none
  | some (.string text) => pure (some text)
  | some other => do
    Noted.warn "MANIFEST_FIELD_NOT_STRING"
      s!"\"{field}\" in {path} must be a string, found {other.kind}; ignoring it"
    return none

/-- The exports among the members of a manifest; null is like no exports. -/
def exportsOf? (members : List (Json.Key × Json.Document)) : Option Exports :=
  match fieldDocument? members "exports" with
  | none => none
  | some .null => none
  | some document => some (Exports.ofDocument document)

/-- The members of the top level of a text, none of the fields repeated. -/
def readMembers (path : FilePath) (source : String) :
    Except Error (List (Json.Key × Json.Document)) :=
  match Json.Document.read source with
  | .error reason => .error (.manifestInvalid path reason)
  | .ok (.object members) =>
    match repeatedField? [] (members.map (·.1)) with
    | none => .ok members
    | some key =>
      let position := Json.Position.withLeft source.toList key.left
      .error (.manifestInvalid path (position.describe s!"duplicate field `{key.text}`"))
  | .ok _ => .error (.manifestInvalid path "top level must be an object")

/-- The manifest of a text read from a path. -/
def parse (path : FilePath) (source : String) : Report Manifest := do
  let members ← readMembers path source
  let name ← textField path "name" (fieldValue? members "name")
  let types ← textField path "types" (fieldValue? members "types")
  let typings ← textField path "typings" (fieldValue? members "typings")
  return {
    directory := path.parent?.getD (FilePath.ofString ".")
    path := path
    name := name
    exports := exportsOf? members
    types := types
    typings := typings
    raw := Keyed.collapse (Json.membersToJson members) }

/-- What a manifest is called in messages: the package's name, or the path. -/
def label (manifest : Manifest) : String :=
  manifest.name.getD manifest.path.toString

end Manifest

end DocPlan
