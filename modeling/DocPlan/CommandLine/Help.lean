import DocPlan.Text.Lines

/-!
# The help
-/

namespace DocPlan.CommandLine

/-- What the program does and which flags it takes, line by line. -/
def helpLines : List String :=
  ["Resolve a package's exports into a documentation config",
   "",
   "Usage: dtsdoc [OPTIONS] [PATH]",
   "",
   "Arguments:",
   "  [PATH]  Entry file, package.json, or package directory (default: nearest package.json)",
   "",
   "Options:",
   "      --condition <NAME>       Export condition to resolve (default: types)",
   "  -o, --out <DIR>              Output directory for the generated docs (default: docs)",
   "      --name <NAME>            Display name for the package",
   "      --tsconfig <FILE>        tsconfig.json supplying base compiler options",
   "      --typedoc-json <FILE>    typedoc.json supplying generator options",
   "      --link-plugin <NAME>     Link plugin to enable (dom, worker, node, deno); repeatable",
   "      --navigation <NAME>      Navigation layout: compact or flat",
   "      --module-name <ID=NAME>  Module display name as ID=NAME; repeatable",
   "      --request <FILE>         JSON request file; flags override its fields",
   "      --workspaces             Resolve every workspace member and merge them",
   "      --strict-declarations    Drop non-declaration files found under the types condition",
   "      --cwd <PATH>             Override the working directory [env: DTSDOC_CWD]",
   "  -v, --verbose                Increase logging verbosity",
   "      --json                   Emit JSON formatted output",
   "  -h, --help                   Print help",
   "  -V, --version                Print version"]

def helpText : String := Text.unlines helpLines

end DocPlan.CommandLine
