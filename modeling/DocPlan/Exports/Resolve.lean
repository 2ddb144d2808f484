import DocPlan.Exports.Basic
import DocPlan.Exports.Conditions
import DocPlan.Exports.Table
import DocPlan.FilePath.Lexical
import DocPlan.Report

/-!
# Resolving exports

An export resolves to the target that is reached first when lists are tried in
their order and objects of conditions in the order of the conditions asked for.
A branch that resolves to nothing does not hide a later one. Of several entries
with one condition only the last is looked at.

A target must begin with `./` and may not leave the package: none of its
segments is `..` or `node_modules`, whichever separator divides them.

`Exports.resolve` resolves every subpath of a package. It never fails: what is
malformed is reported and left out.
-/

namespace DocPlan.Exports

/-- The segments of a target, divided by either separator. -/
def targetSegments : List Char → List (List Char)
  | [] => [[]]
  | c :: rest =>
    if c = '/' ∨ c = '\\' then [] :: targetSegments rest
    else Text.extendFirst c (targetSegments rest)

/-- Whether a segment leads out of the package. -/
def escapes (segment : List Char) : Bool :=
  segment = "..".toList || segment = "node_modules".toList

/-- A message about an export. -/
def about (key message : String) : String :=
  s!"exports[\"{key}\"] {message}"

/-- Reports an export that is not a target. -/
def rejected (key message : String) : Noted (Option String) := do
  Noted.warn "EXPORTS_INVALID_TARGET" (about key message)
  return none

/-- A target, if it stays in the package. -/
def checkTarget (key text : String) : Noted (Option String) :=
  match text.toList with
  | '.' :: '/' :: rest =>
    if (targetSegments rest).any escapes then
      rejected key s!"target \"{text}\" escapes the package"
    else pure (some text)
  | _ => rejected key s!"target \"{text}\" must start with \"./\""

/-- The first result that is something; those after it are not looked at. -/
def firstResolved : List (Noted (Option String)) → Noted (Option String)
  | [] => pure none
  | result :: rest => do
    match ← result with
    | some text => return some text
    | none => firstResolved rest

/-- The last entry of each name that has one, in the order of the names. -/
def chosen {α : Type} (names : List String) (entries : List (String × α)) : List α :=
  names.filterMap fun name => Keyed.last? name entries

mutual

/-- The target that an export resolves to. -/
def resolveTarget (names : List String) (key : String) : Exports → Noted (Option String)
  | .target text => checkTarget key text
  | .null => pure none
  | .fallbacks items => firstResolved (resolveItems names key items)
  | .conditions entries => firstResolved (chosen names (resolveEntries names key entries))
  | .subpaths _ => rejected key "nests subpath keys inside a target"
  | .mixed _ => rejected key "nests subpath keys inside a target"
  | .unsupported scalar => rejected key s!"target is a {scalar.name}"

def resolveItems (names : List String) (key : String) :
    List Exports → List (Noted (Option String))
  | [] => []
  | item :: rest => resolveTarget names key item :: resolveItems names key rest

def resolveEntries (names : List String) (key : String) :
    List (String × Exports) → List (String × Noted (Option String))
  | [] => []
  | (name, item) :: rest =>
    (name, resolveTarget names key item) :: resolveEntries names key rest

end

/-- Adds the declaration of a subpath to those before it. A subpath that is
declared again keeps its place and takes the new export. -/
def declare (declared : List (String × Exports)) (entry : String × Exports) :
    Noted (List (String × Exports)) := do
  if entry.1 ∈ Keyed.keys declared then
    Noted.warn "EXPORTS_DUPLICATE_KEY"
      s!"exports key \"{entry.1}\" is declared more than once; using the last declaration"
  return Keyed.put entry.1 entry.2 declared

/-- The subpaths among entries, each once. -/
def declaredSubpaths (entries : List (String × Exports)) : Noted (List (String × Exports)) :=
  (entries.filter fun entry => isSubpathKey entry.1).foldlM declare []

/-- The subpaths that a package exports, with their exports. -/
def subpathsOf (exports : Exports) : Noted (List (String × Exports)) :=
  match exports with
  | .subpaths entries => declaredSubpaths entries
  | .mixed entries => do
    let ignored := (Keyed.keys entries).filter (!isSubpathKey ·)
    Noted.warn "EXPORTS_MIXED_KEYS"
      ("exports mixes subpath and condition keys; ignoring conditions: " ++
        ", ".intercalate ignored)
    declaredSubpaths entries
  | .target _ => pure [(".", exports)]
  | .conditions _ => pure [(".", exports)]
  | .fallbacks _ => pure [(".", exports)]
  | .null => pure []
  | .unsupported scalar => do
    Noted.warn "EXPORTS_INVALID_TARGET"
      s!"exports must be a string, array, or object, found {scalar.name}"
    return []

/-- Resolves a subpath and adds it to a table. -/
def resolveSubpath (directory : FilePath) (conditions : Conditions) (table : ExportTable)
    (entry : String × Exports) : Noted ExportTable := do
  match ← resolveTarget conditions.names entry.1 entry.2 with
  | some text =>
    let path := directory.absolutize (FilePath.ofString text)
    Noted.info "EXPORT_RESOLVED" (about entry.1 s!"-> {path}")
    return table.insert entry.1 path
  | none =>
    let wanted := ", ".intercalate conditions.names
    Noted.info "EXPORT_NO_MATCH" (about entry.1 s!"has no target for conditions [{wanted}]")
    return table

/-- The file of every exported subpath that resolves under the conditions. -/
def resolve (exports : Option Exports) (directory : FilePath) (conditions : Conditions) :
    Noted ExportTable :=
  match exports with
  | none => pure .empty
  | some exports => do
    let subpaths ← subpathsOf exports
    subpaths.foldlM (resolveSubpath directory conditions) .empty

end DocPlan.Exports
