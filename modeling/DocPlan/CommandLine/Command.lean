import DocPlan.CommandLine.Arguments

/-!
# Commands

The items of a command line are taken one after the other. The first that does
not fit is the error, unless the version or the help has been asked for before
it.
-/

namespace DocPlan.CommandLine

/-- What a command line asks the program to do. -/
inductive Command where
  | generate (arguments : Arguments)
  | showHelp
  | showVersion

/-- The command of items, after those that led to some arguments. -/
def Command.ofItems (environment : Option Word) (arguments : Arguments) :
    List Item → Except UsageError Command
  | [] => (arguments.withEnvironment environment).map .generate
  | .wrong error :: _ => .error error
  | .setting setting value :: rest => do
    let arguments ← arguments.set setting value
    ofItems environment arguments rest
  | .switch .workspaces :: rest => do
    let workspaces ← Arguments.raised .workspaces arguments.workspaces
    ofItems environment { arguments with workspaces } rest
  | .switch .strictDeclarations :: rest => do
    let strictDeclarations ← Arguments.raised .strictDeclarations arguments.strictDeclarations
    ofItems environment { arguments with strictDeclarations } rest
  | .switch .json :: rest => do
    let json ← Arguments.raised .json arguments.json
    ofItems environment { arguments with json } rest
  | .switch .verbose :: rest =>
    ofItems environment { arguments with verbosity := arguments.verbosity + 1 } rest
  | .switch .help :: _ => .ok .showHelp
  | .switch .version :: _ => .ok .showVersion

/-- The command of a command line. The environment may name the directory. -/
def Command.ofWords (environment : Option Word) (words : List Word) :
    Except UsageError Command :=
  Command.ofItems environment {} (items words)

end DocPlan.CommandLine
