import DocPlan.Config.Basic
import DocPlan.Json.Printer
import DocPlan.Text.Lines
import DocPlan.Version

/-!
# What a run prints

A configuration is printed as a summary for readers or as JSON for programs. A
failure is printed only as JSON.
-/

namespace DocPlan

/-- Lines under a title, after an empty line; nothing without lines. -/
def titled (title : String) (lines : List String) : List String :=
  if lines.isEmpty then [] else "" :: title :: lines.map ("  " ++ ·)

/-- The lines of a configuration's summary. -/
def Config.summaryLines (config : Config) : List String :=
  [versionText] ++
  (config.name.map ("Package:    " ++ ·)).toList ++
  [s!"Condition:  {config.condition}", s!"Output:     {config.output}"] ++
  (config.path.map fun path => s!"Path:       {path}").toList ++
  config.manifests.map (fun path => s!"Manifest:   {path}") ++
  ["", s!"Entry points ({config.entryPoints.size}):"] ++
  config.entryPoints.paths.map (fun path => s!"  {path}") ++
  titled "Link plugins:" (config.linkPlugins.map fun p => s!"{p.name} ({p.module})") ++
  titled "Module names:" (config.moduleNames.entries.map fun e => s!"{e.1} -> {e.2}") ++
  (if config.hasCompilerOptions then
    ["", s!"Compiler options: {config.compilerOptions.length}"]
  else [])

/-- The summary of a configuration. -/
def Config.summary (config : Config) : String := Text.unlines config.summaryLines

/-- An error as an object. -/
def Error.toJson (error : Error) : Json :=
  .object ([("code", .string error.code), ("message", .string error.message)] ++
    (error.field?.map fun field => ("field", Json.string field)).toList)

/-- The outcome of a run as an object; none for a configuration that has no
form as a value. -/
def outcomeJson? : Except Error Config → Option Json
  | .ok config =>
    config.json?.map fun json => .object [("ok", .boolean true), ("config", json)]
  | .error error => some (.object [("ok", .boolean false), ("error", error.toJson)])

end DocPlan
