import DocPlan.Config.Merge
import DocPlan.Config.Validate
import DocPlan.Manifest.Workspaces

/-!
# Planning a run

A run is about one package, or about every member of a workspace. In the latter
case each member is validated on its own and the configurations are merged; a
name that the request gives counts only if there is one member.

A run that fails reports its error last (`Plan.reportFailure`), each problem
with compiler options by itself.
-/

namespace DocPlan.Plan

/-- The error diagnostics of an error. -/
def failureDiagnostics : Error → List Diagnostic
  | .invalidCompilerOptions problems =>
    problems.map fun problem => ⟨.error, "INVALID_COMPILER_OPTIONS", problem⟩
  | error => [⟨.error, error.code, error.message⟩]

/-- Adds the error of a failed run to what it reported. -/
def reportFailure {α : Type} (report : Report α) : Report α :=
  match report.outcome with
  | .ok _ => report
  | .error error => ⟨report.diagnostics ++ failureDiagnostics error, .error error⟩

/-- The manifest whose workspace a request is about. -/
def workspaceRoot (site : Site) (request : Request) : Report Manifest :=
  match request.path with
  | some path =>
    let path := site.absolute path
    Manifest.load site.files
      (if site.files.isDirectory path then path.join manifestName else path)
  | none => Manifest.discover site.files site.directory

/-- The request for one member of a workspace. -/
def memberRequest (request : Request) (single : Bool) (member : FilePath) : Request :=
  { request with path := some member, name := if single then request.name else none }

/-- The members of a workspace, of which there must be some. -/
def requireMembers (root : Manifest) (request : Request) :
    Option (List FilePath) → Except Error (List FilePath)
  | none => .error (.invalidField "workspaces" s!"{root.path} declares no workspaces")
  | some [] =>
    .error (.noEntryPoints root.directory (request.condition.getD typesCondition))
  | some members => .ok members

/-- Reports a name that several members cannot share. -/
def reportIgnoredName (request : Request) (members : List FilePath) : Noted Unit :=
  if request.name.isSome && 1 < members.length then
    Noted.warn "MERGE_SETTING_IGNORED"
      "'name' names a single package; ignoring it for a multi-package run"
  else pure ()

/-- The configurations of the members, in order. -/
def memberConfigs (site : Site) (request : Request) (single : Bool) :
    List FilePath → Report (List Config)
  | [] => pure []
  | member :: rest => do
    let config ← Config.validate site (memberRequest request single member)
    let configs ← memberConfigs site request single rest
    return config :: configs

/-- The configuration of a workspace. -/
def workspace (site : Site) (request : Request) : Report Config := do
  let root ← workspaceRoot site request
  let found ← Workspaces.members site.files root
  let members ← requireMembers root request found
  reportIgnoredName request members
  let configs ← memberConfigs site request (members.length == 1) members
  match configs with
  | [config] => return config
  | configs => Config.merge configs

/-- The configuration of a run, over a package or a workspace. -/
def run (site : Site) (overWorkspace : Bool) (request : Request) : Report Config :=
  reportFailure
    (if overWorkspace then workspace site request else Config.validate site request)

end DocPlan.Plan
