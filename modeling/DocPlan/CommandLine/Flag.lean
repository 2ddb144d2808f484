/-!
# Flags

A flag either takes a value (`Setting`) or stands alone (`Switch`). Each has one
long name and some have a letter. Names count only when they are written out.
-/

namespace DocPlan.CommandLine

/-- What a value on the command line is for. -/
inductive Setting where
  /-- The path that stands without a flag. -/
  | path
  | condition
  | output
  | name
  | tsconfig
  | typedocJson
  | linkPlugin
  | navigation
  | moduleName
  | request
  | directory
  deriving DecidableEq, Repr

/-- A flag without a value. -/
inductive Switch where
  | workspaces
  | strictDeclarations
  | json
  | verbose
  | help
  | version
  deriving DecidableEq, Repr

inductive Flag where
  | setting (setting : Setting)
  | switch (switch : Switch)
  deriving DecidableEq, Repr

namespace Setting

/-- The name of a setting in messages. -/
def text : Setting → String
  | .path => "[PATH]"
  | .condition => "--condition <NAME>"
  | .output => "--out <DIR>"
  | .name => "--name <NAME>"
  | .tsconfig => "--tsconfig <FILE>"
  | .typedocJson => "--typedoc-json <FILE>"
  | .linkPlugin => "--link-plugin <NAME>"
  | .navigation => "--navigation <NAVIGATION>"
  | .moduleName => "--module-name <ID=NAME>"
  | .request => "--request <FILE>"
  | .directory => "--cwd <PATH>"

end Setting

namespace Switch

/-- The name of a switch in messages. -/
def text : Switch → String
  | .workspaces => "--workspaces"
  | .strictDeclarations => "--strict-declarations"
  | .json => "--json"
  | .verbose => "--verbose"
  | .help => "--help"
  | .version => "--version"

end Switch

namespace Flag

/-- The flag of a long name, without its dashes. -/
def ofLong? : String → Option Flag
  | "condition" => some (.setting .condition)
  | "out" => some (.setting .output)
  | "name" => some (.setting .name)
  | "tsconfig" => some (.setting .tsconfig)
  | "typedoc-json" => some (.setting .typedocJson)
  | "link-plugin" => some (.setting .linkPlugin)
  | "navigation" => some (.setting .navigation)
  | "module-name" => some (.setting .moduleName)
  | "request" => some (.setting .request)
  | "cwd" => some (.setting .directory)
  | "workspaces" => some (.switch .workspaces)
  | "strict-declarations" => some (.switch .strictDeclarations)
  | "json" => some (.switch .json)
  | "verbose" => some (.switch .verbose)
  | "help" => some (.switch .help)
  | "version" => some (.switch .version)
  | _ => none

/-- The flag of a letter. -/
def ofLetter? : Char → Option Flag
  | 'o' => some (.setting .output)
  | 'v' => some (.switch .verbose)
  | 'h' => some (.switch .help)
  | 'V' => some (.switch .version)
  | _ => none

end Flag

end DocPlan.CommandLine
