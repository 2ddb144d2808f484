import DocPlan.Config.Basic

/-!
# Merging configurations

The configurations of several packages become one. Entry points, manifests,
display names and link plugins are united. All other settings are those of the
first configuration, and each of them on which a later one differs is reported.
The result has no name and no path of its own.
-/

namespace DocPlan.Config

/-- What a configuration is called in messages. -/
def label (config : Config) : String :=
  (config.name.or (config.manifests.head?.map FilePath.toString)).getD "package"

/-- The settings taken from the first configuration, and whether another differs
on each of them. -/
def differences (first other : Config) : List (String × Bool) :=
  [("condition", first.condition != other.condition),
   ("output", !first.output.same other.output),
   ("navigation", decide (first.navigation ≠ other.navigation)),
   ("tsconfig", !samePath first.tsconfig other.tsconfig),
   ("compilerOptions",
     !first.compilerOptions.same other.compilerOptions ||
       first.unsetCompilerOptions != other.unsetCompilerOptions),
   ("typedocOptions", !first.typedocOptions.same other.typedocOptions)]

/-- The report of a setting that is ignored. -/
def ignoredSetting (config : Config) (setting : String) : Diagnostic :=
  ⟨.warn, "MERGE_SETTING_IGNORED",
    s!"{config.label}: '{setting}' differs from the first package; using the first package's value"⟩

/-- Reports the settings on which a configuration differs from the first. -/
def reportDifferences (first other : Config) : Noted Unit :=
  ⟨((differences first other).filter (·.2)).map fun entry => ignoredSetting other entry.1, ()⟩

/-- The paths of both lists, each once. -/
def unitePaths (paths others : List FilePath) : List FilePath :=
  others.foldl
    (fun paths path => if paths.any (·.same path) then paths else paths ++ [path]) paths

/-- The plugins of both lists, each once. -/
def unitePlugins (plugins others : List LinkPlugin) : List LinkPlugin :=
  others.foldl LinkPlugin.addTo plugins

/-- The display names of both tables. -/
def uniteNames (names others : ModuleNames) : Except Error ModuleNames :=
  match names.extend others with
  | (names, none) => .ok names
  | (_, some error) => .error error

/-- Merges a configuration into the first ones. -/
def mergeOne (merged config : Config) : Report Config := do
  reportDifferences merged config
  let moduleNames ← uniteNames merged.moduleNames config.moduleNames
  let linkPlugins := unitePlugins merged.linkPlugins config.linkPlugins
  LinkPlugin.checkExclusive linkPlugins
  return { merged with
    entryPoints := merged.entryPoints.union config.entryPoints
    manifests := unitePaths merged.manifests config.manifests
    moduleNames := moduleNames
    linkPlugins := linkPlugins
    entryPointsDeclared := merged.entryPointsDeclared && config.entryPointsDeclared
    fromPackage := merged.fromPackage && config.fromPackage }

/-- The configuration of a run over several packages. -/
def anonymous (config : Config) : Config :=
  { config with
    name := none
    path := none
    hasCompilerOptions := !config.compilerOptions.isEmpty }

/-- One configuration for several packages. -/
def merge : List Config → Report Config
  | [] => Report.fail (.invalidField "packages" "nothing to merge")
  | first :: rest => do
    let merged ← rest.foldlM mergeOne first
    return merged.anonymous

end DocPlan.Config
