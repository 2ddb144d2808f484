import DocPlan.CommandLine.Item
import DocPlan.Request

/-!
# Arguments

What a command line asks for, as far as it has been read. A setting that is
given once and a switch that is raised once may not be repeated; link plugins
and display names add up. A path may be any bytes, all other values are texts.
-/

namespace DocPlan.CommandLine

/-- What a command line asks for, besides the request in a file. -/
structure Arguments where
  path : Option FilePath := none
  condition : Option String := none
  output : Option String := none
  name : Option String := none
  tsconfig : Option FilePath := none
  typedocJson : Option FilePath := none
  linkPlugins : List String := []
  navigation : Option String := none
  moduleNames : List (String × String) := []
  /-- The file with a request. -/
  request : Option FilePath := none
  /-- The directory that a run is in. -/
  directory : Option FilePath := none
  workspaces : Bool := false
  strictDeclarations : Bool := false
  json : Bool := false
  verbosity : Nat := 0

namespace Arguments

/-- The value of a setting that is given once. -/
def once {α : Type} (setting : Setting) (old : Option α) (value : α) :
    Except UsageError (Option α) :=
  match old with
  | none => .ok (some value)
  | some _ => .error (.repeated setting.text)

/-- The path of a setting that is given once. -/
def oncePath (setting : Setting) (old : Option FilePath) (value : Word) :
    Except UsageError (Option FilePath) :=
  if value.isEmpty then .error (.emptyPath setting)
  else once setting old ⟨value⟩

/-- The value of a setting that must be a text. -/
def readText (setting : Setting) (value : Word) : Except UsageError String :=
  match Utf8.decode? value with
  | some text => .ok (String.ofList text)
  | none => .error (.notText setting)

/-- The text of a setting that is given once. -/
def onceText (setting : Setting) (old : Option String) (value : Word) :
    Except UsageError (Option String) := do
  let text ← readText setting value
  once setting old text

/-- A module and its display name, both not empty, parted by the first sign of
equality. -/
def moduleName (value : String) : Except UsageError (String × String) :=
  let id := value.toList.takeWhile (· ≠ '=')
  let display := (value.toList.dropWhile (· ≠ '=')).drop 1
  if id.isEmpty || display.isEmpty then .error (.badModuleName value)
  else .ok (String.ofList id, String.ofList display)

/-- Gives a setting its value. -/
def set (arguments : Arguments) (setting : Setting) (value : Word) :
    Except UsageError Arguments :=
  match setting with
  | .path => (oncePath setting arguments.path value).map fun v => { arguments with path := v }
  | .condition =>
    (onceText setting arguments.condition value).map fun v => { arguments with condition := v }
  | .output =>
    (onceText setting arguments.output value).map fun v => { arguments with output := v }
  | .name => (onceText setting arguments.name value).map fun v => { arguments with name := v }
  | .tsconfig =>
    (oncePath setting arguments.tsconfig value).map fun v => { arguments with tsconfig := v }
  | .typedocJson =>
    (oncePath setting arguments.typedocJson value).map fun v =>
      { arguments with typedocJson := v }
  | .linkPlugin =>
    (readText setting value).map fun v =>
      { arguments with linkPlugins := arguments.linkPlugins ++ [v] }
  | .navigation =>
    (onceText setting arguments.navigation value).map fun v => { arguments with navigation := v }
  | .moduleName =>
    (readText setting value >>= moduleName).map fun v =>
      { arguments with moduleNames := arguments.moduleNames ++ [v] }
  | .request =>
    (oncePath setting arguments.request value).map fun v => { arguments with request := v }
  | .directory =>
    (oncePath setting arguments.directory value).map fun v => { arguments with directory := v }

/-- A switch that is set once. -/
def raised (switch : Switch) (old : Bool) : Except UsageError Bool :=
  if old then .error (.repeated switch.text) else .ok true

/-- The directory of the environment counts when the command line names none. -/
def withEnvironment (arguments : Arguments) (directory : Option Word) :
    Except UsageError Arguments :=
  match arguments.directory, directory with
  | none, some value => arguments.set .directory value
  | _, _ => .ok arguments

end Arguments

end DocPlan.CommandLine
