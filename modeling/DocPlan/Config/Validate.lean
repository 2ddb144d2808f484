import DocPlan.Config.Basic
import DocPlan.Config.Options
import DocPlan.Exports.Resolve
import DocPlan.Text.Blank

/-!
# From a request to a configuration

The settings of a request are checked first, field by field, and the first field
that does not fit is the error (`Settings.ofRequest`). They depend on the request
and the configuration files alone. Then the subject is found: one entry file, or
the package of a manifest (`Subject.ofRequest`). `Config.validate` puts the two
together.
-/

namespace DocPlan

/-- A field that must not be blank when it is set. -/
def requireText (field : String) (value : Option String) : Except Error (Option String) :=
  match value with
  | some text =>
    if Text.isBlank text then .error (.invalidField field "must not be empty")
    else .ok (some text)
  | none => .ok none

namespace Site

/-- A path of a request, seen from the directory. -/
def absolute (site : Site) (path : FilePath) : FilePath := site.directory.absolutize path

/-- A file that must exist when it is named. -/
def requireFile (site : Site) (field : String) (path : Option FilePath) :
    Except Error (Option FilePath) :=
  match path with
  | none => .ok none
  | some path =>
    if site.files.isFile (site.absolute path) then .ok (some (site.absolute path))
    else .error (.invalidField field s!"file does not exist: {site.absolute path}")

end Site

/-! ## Settings -/

/-- The output directory of a request that names none. -/
def defaultOutput : String := "docs"

/-- What a request sets, apart from the package it is about. -/
structure Settings where
  navigation : Option Navigation
  condition : String
  output : FilePath
  name : Option String
  linkPlugins : List LinkPlugin
  tsconfig : Option FilePath
  typedocJson : Option FilePath
  typedocOptions : Members
  compilerOptions : Options.Checked
  moduleNames : ModuleNames
  policy : DeclarationPolicy

namespace Settings

def readNavigation (request : Request) : Except Error (Option Navigation) :=
  match request.navigation with
  | none => .ok none
  | some text => (Navigation.ofName text).map some

/-- The checked settings of a request. -/
def ofRequest (site : Site) (checker : CompilerOptions.Checker) (request : Request) :
    Report Settings := do
  let navigation ← readNavigation request
  let condition ← requireText "condition" request.condition
  let output ← requireText "output" request.output
  let name ← requireText "name" request.name
  let linkPlugins ← LinkPlugin.resolve (request.linkPlugins.getD [])
  let tsconfig ← site.requireFile "tsconfig" request.tsconfig
  let typedocJson ← site.requireFile "typedocJson" request.typedocJson
  let gathered ← Options.gather site.files request tsconfig typedocJson
  let compilerOptions ← Options.check checker gathered.merged
  let moduleNames ← ModuleNames.ofList (request.moduleNames.getD [])
  return {
    navigation := navigation
    condition := condition.getD typesCondition
    output := site.absolute (FilePath.ofString (output.getD defaultOutput))
    name := name
    linkPlugins := linkPlugins
    tsconfig := tsconfig
    typedocJson := typedocJson
    typedocOptions := gathered.typedoc
    compilerOptions := compilerOptions
    moduleNames := moduleNames
    policy := request.policy }

end Settings

/-! ## Subjects -/

/-- Where entry points come from. -/
inductive Source where
  /-- One file. -/
  | file (path : FilePath)
  /-- The package of a manifest. -/
  | manifest (path : FilePath)

namespace Source

def invalidPath (reason : String) : Error := .invalidField "path" reason

/-- The source at an absolute path. -/
def atPath (fs : FileSystem) (path : FilePath) : Except Error Source :=
  if fs.isDirectory path then
    let manifest := path.join manifestName
    if fs.isFile manifest then .ok (.manifest manifest)
    else .error (invalidPath s!"directory {path} has no {manifestName}")
  else if !fs.isFile path then .error (invalidPath s!"file does not exist: {path}")
  else if path.fileName? = some manifestName.bytes then .ok (.manifest path)
  else if Entry.isAllowed path then .ok (.file path)
  else
    .error (invalidPath
      s!"{path} is not a source file, declaration file, or {manifestName}")

/-- The source that a request is about: its path, or else the nearest manifest. -/
def ofRequest (site : Site) (request : Request) : Except Error Source :=
  match request.path with
  | some path => atPath site.files (site.absolute path)
  | none =>
    match Manifest.find? site.files site.directory with
    | some path => .ok (.manifest path)
    | none => .error (.manifestNotFound site.directory)

end Source

/-- What a configuration documents. -/
structure Subject where
  path : Option FilePath
  name : Option String
  entryPoints : EntrySet
  manifests : List FilePath
  moduleNames : ModuleNames

namespace Subject

/-- One entry file. -/
def ofFile (settings : Settings) (file : FilePath) : Subject where
  path := some file
  name := settings.name
  entryPoints := EntrySet.empty.insert file
  manifests := []
  moduleNames := settings.moduleNames

/-- The display names of modules, together with a package's own when the request
gives it another name. -/
def namesWithPackage (settings : Settings) (manifest : Manifest) : Except Error ModuleNames :=
  match manifest.name, settings.name with
  | some package, some display =>
    if package = display then .ok settings.moduleNames
    else settings.moduleNames.insert package display
  | _, _ => .ok settings.moduleNames

/-- The package of a manifest. -/
def ofManifest (fs : FileSystem) (settings : Settings) (path : FilePath) : Report Subject := do
  let manifest ← Manifest.load fs path
  let exports ←
    Exports.resolve manifest.exports manifest.directory (Conditions.single settings.condition)
  let entryPoints ← Entry.collect fs manifest exports ⟨settings.condition, settings.policy⟩
  let moduleNames ← namesWithPackage settings manifest
  return {
    path := none
    name := settings.name.or manifest.name
    entryPoints := entryPoints
    manifests := [manifest.path]
    moduleNames := moduleNames }

/-- The subject of a request. -/
def ofRequest (site : Site) (settings : Settings) (request : Request) : Report Subject := do
  match ← Source.ofRequest site request with
  | .file path => return ofFile settings path
  | .manifest path => ofManifest site.files settings path

/-- Whether all entry points are declarations. -/
def isDeclared (subject : Subject) : Bool :=
  match subject.path with
  | some file => Entry.isDeclaration file
  | none => subject.entryPoints.allDeclarations

end Subject

/-! ## Configurations -/

namespace Config

/-- The configuration of a subject under some settings. -/
def ofParts (settings : Settings) (subject : Subject) : Config where
  condition := settings.condition
  output := settings.output
  path := subject.path
  name := subject.name
  entryPoints := subject.entryPoints
  compilerOptions := settings.compilerOptions.used
  unsetCompilerOptions := settings.compilerOptions.unset
  linkPlugins := settings.linkPlugins
  moduleNames := subject.moduleNames
  navigation := settings.navigation
  tsconfig := settings.tsconfig
  typedocJson := settings.typedocJson
  typedocOptions := settings.typedocOptions
  manifests := subject.manifests
  policy := settings.policy
  fromPackage := subject.path.isNone
  entryPointsDeclared := subject.isDeclared
  hasCompilerOptions := !settings.compilerOptions.used.isEmpty

/-- The configuration that a request asks for, with a check of compiler options
of the caller's choice. -/
def validateWith (checker : CompilerOptions.Checker) (site : Site) (request : Request) :
    Report Config := do
  let settings ← Settings.ofRequest site checker request
  let subject ← Subject.ofRequest site settings request
  return ofParts settings subject

/-- The configuration that a request asks for. -/
def validate (site : Site) (request : Request) : Report Config :=
  validateWith CompilerOptions.check site request

end Config

end DocPlan
