import DocPlan.Entry.Collect
import DocPlan.LinkPlugin
import DocPlan.ModuleNames
import DocPlan.Navigation
import DocPlan.Request

/-!
# Configurations

What the documentation generator is given: every setting checked, every path
made absolute, the entry points found. `Config.toJson` is the form that the
generator reads; there is one only if all paths are texts (`Config.json?`).
`Config.toRequest` is the request that asks for the same configuration again. It
names the output directory by its text, as far as that has one.
-/

namespace DocPlan

structure Config where
  condition : String
  output : FilePath
  /-- The entry file, when one was asked for instead of a package. -/
  path : Option FilePath
  name : Option String
  entryPoints : EntrySet
  compilerOptions : Members
  /-- Options that some source sets to null, in order. -/
  unsetCompilerOptions : List String
  linkPlugins : List LinkPlugin
  moduleNames : ModuleNames
  navigation : Option Navigation
  tsconfig : Option FilePath
  typedocJson : Option FilePath
  typedocOptions : Members
  /-- The manifests that contributed, in order. -/
  manifests : List FilePath
  policy : DeclarationPolicy
  fromPackage : Bool
  entryPointsDeclared : Bool
  hasCompilerOptions : Bool

namespace Config

/-! ## As a value -/

def pathJson (path : FilePath) : Json := .string path.toString

/-- A member that is left out when it has no value. -/
def optional (key : String) : Option Json → Members
  | some value => [(key, value)]
  | none => []

/-- The configuration as the generator reads it. -/
def toJson (config : Config) : Json :=
  .object <|
    [("condition", .string config.condition), ("output", pathJson config.output)] ++
    optional "path" (config.path.map pathJson) ++
    optional "name" (config.name.map .string) ++
    [("entryPoints", .array (config.entryPoints.paths.map pathJson)),
     ("compilerOptions", .object config.compilerOptions)] ++
    (if config.unsetCompilerOptions.isEmpty then []
      else [("unsetCompilerOptions", Json.strings config.unsetCompilerOptions)]) ++
    [("linkPlugins", Json.strings (config.linkPlugins.map LinkPlugin.module)),
     ("dmtModuleNames", config.moduleNames.toJson)] ++
    optional "navigation" (config.navigation.map fun n => .string n.name) ++
    optional "tsconfig" (config.tsconfig.map pathJson) ++
    optional "typedocJson" (config.typedocJson.map pathJson) ++
    [("typedocOptions", .object config.typedocOptions),
     ("manifests", .array (config.manifests.map pathJson)),
     ("declarationPolicy", .string config.policy.name),
     ("fromPackage", .boolean config.fromPackage),
     ("entryPointsDTS", .boolean config.entryPointsDeclared),
     ("hasCompilerOptions", .boolean config.hasCompilerOptions)]

/-- The paths of a configuration. -/
def paths (config : Config) : List FilePath :=
  [config.output] ++ config.path.toList ++ config.entryPoints.paths ++ config.tsconfig.toList ++
    config.typedocJson.toList ++ config.manifests

/-- The configuration as the generator reads it, unless one of its paths is no
text. -/
def json? (config : Config) : Option Json :=
  if config.paths.all FilePath.isText then some config.toJson else none

/-! ## As a request -/

/-- The options of a configuration, each unset one as null. -/
def requestOptions (config : Config) : Members :=
  Keyed.overlay config.compilerOptions
    (config.unsetCompilerOptions.map fun name => (name, .null))

/-- The only member of a list. -/
def sole? : List FilePath → Option FilePath
  | [path] => some path
  | _ => none

/-- The request for the same configuration. A configuration of several packages
has no path to ask for. -/
def toRequest (config : Config) : Request where
  navigation := config.navigation.map Navigation.name
  condition := some config.condition
  output := some config.output.toString
  name := config.name
  path := config.path.or (sole? config.manifests)
  tsconfig := config.tsconfig
  typedocOptions := some config.typedocOptions
  typedocJson := config.typedocJson
  linkPlugins := some (config.linkPlugins.map LinkPlugin.name)
  compilerOptions := some config.requestOptions
  moduleNames := some config.moduleNames.entries
  policy := config.policy

/-! ## Equality -/

/-- Equality of optional paths. -/
def samePath : Option FilePath → Option FilePath → Bool
  | some p, some q => p.same q
  | none, none => true
  | _, _ => false

/-- Equality of lists of paths. -/
def samePaths (ps qs : List FilePath) : Bool :=
  ps.map (·.components) = qs.map (·.components)

/-- Whether two configurations say the same. -/
def same (a b : Config) : Bool :=
  a.condition == b.condition && a.output.same b.output && samePath a.path b.path &&
  a.name == b.name && a.entryPoints.same b.entryPoints &&
  a.compilerOptions.same b.compilerOptions &&
  a.unsetCompilerOptions == b.unsetCompilerOptions &&
  decide (a.linkPlugins = b.linkPlugins) && decide (a.moduleNames = b.moduleNames) &&
  decide (a.navigation = b.navigation) && samePath a.tsconfig b.tsconfig &&
  samePath a.typedocJson b.typedocJson && a.typedocOptions.same b.typedocOptions &&
  samePaths a.manifests b.manifests && decide (a.policy = b.policy) &&
  a.fromPackage == b.fromPackage && a.entryPointsDeclared == b.entryPointsDeclared &&
  a.hasCompilerOptions == b.hasCompilerOptions

end Config

end DocPlan
