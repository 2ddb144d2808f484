import DocPlan.CommandLine.Command
import DocPlan.CommandLine.Help
import DocPlan.CommandLine.Log
import DocPlan.CommandLine.Summary
import DocPlan.Plan

/-!
# Running a command line

A run reads its request from a file, if one is named, and puts the flags of the
command line on top (`Arguments.fullRequest`). It prints the configuration,
writes the log and ends with a status: 0 if there is a configuration, 1 if there
is none, 2 if the command line itself makes no sense. A run that is asked for an
object and finds a configuration with a path that is no text breaks off: it has
the status 101 and prints nothing.
-/

namespace DocPlan.CommandLine

/-! ## The request -/

/-- Puts the flags of a command line on a request. Display names are added to
those that are there, link plugins take their place. -/
def Arguments.override (arguments : Arguments) (request : Request) : Request :=
  { request with
    path := arguments.path.or request.path
    condition := arguments.condition.or request.condition
    output := arguments.output.or request.output
    name := arguments.name.or request.name
    tsconfig := arguments.tsconfig.or request.tsconfig
    typedocJson := arguments.typedocJson.or request.typedocJson
    navigation := arguments.navigation.or request.navigation
    linkPlugins :=
      if arguments.linkPlugins.isEmpty then request.linkPlugins else some arguments.linkPlugins
    moduleNames :=
      if arguments.moduleNames.isEmpty then request.moduleNames
      else some (request.moduleNames.getD [] ++ arguments.moduleNames)
    policy := if arguments.strictDeclarations then .exclude else request.policy }

/-- The request in the file that a command line names, or an empty one. -/
def Arguments.baseRequest (arguments : Arguments) (site : Site) : Except Error Request :=
  match arguments.request with
  | some file => do
    let members ← ConfigFile.readObject site.files (site.absolute file)
    Request.ofJson (.object members)
  | none => .ok {}

/-- The request of a command line. -/
def Arguments.fullRequest (arguments : Arguments) (site : Site) : Except Error Request :=
  (arguments.baseRequest site).map arguments.override

/-! ## The run -/

/-- What a command line leads to. -/
inductive Outcome where
  | misused (error : UsageError)
  /-- The status, the text that is printed and the events of the log that are
  shown, as objects or as texts. -/
  | finished (status : Nat) (printed : String) (json : Bool) (log : List LogEvent)

/-- The directory of a run: the one that is asked for or the one the program is
in, without links if it exists. -/
def Arguments.site (arguments : Arguments) (fs : FileSystem) : Site :=
  let directory := arguments.directory.getD fs.workingPath
  ⟨fs, (fs.canonical? directory).getD directory⟩

/-- The configuration that a command line asks for. -/
def Arguments.config (arguments : Arguments) (site : Site) : Report Config :=
  match arguments.fullRequest site with
  | .ok request => Plan.run site arguments.workspaces request
  | .error error => Plan.reportFailure (Report.fail error)

/-- The text that is printed for an outcome, if the run gets so far. -/
def printedText? (json : Bool) (outcome : Except Error Config) : Option String :=
  if json then (outcomeJson? outcome).map fun value => value.pretty ++ "\n"
  else
    match outcome with
    | .ok config => some config.summary
    | .error _ => some ""

/-- The status of a run that gets to its end. -/
def statusOf : Except Error Config → Nat
  | .ok _ => 0
  | .error _ => 1

/-- The status of a run that breaks off. -/
def brokenOff : Nat := 101

/-- The status that a run ends with and the text that it prints. -/
def ending (json : Bool) (outcome : Except Error Config) : Nat × String :=
  match printedText? json outcome with
  | some printed => (statusOf outcome, printed)
  | none => (brokenOff, "")

/-- Generates a configuration. -/
def generate (fs : FileSystem) (arguments : Arguments) : Outcome :=
  let site := arguments.site fs
  let report := arguments.config site
  let events := .starting site.directory :: report.diagnostics.map .reported
  let (status, printed) := ending arguments.json report.outcome
  .finished status printed arguments.json (LogEvent.shown (0 < arguments.verbosity) events)

/-- What a command line leads to on a file system. -/
def runWords (fs : FileSystem) (environment : Option Word) (words : List Word) : Outcome :=
  match Command.ofWords environment words with
  | .error error => .misused error
  | .ok .showHelp => .finished 0 helpText false []
  | .ok .showVersion => .finished 0 (versionText ++ "\n") false []
  | .ok (.generate arguments) => generate fs arguments

/-- What a command line of texts leads to. -/
def run (fs : FileSystem) (environment : Option String) (texts : List String) : Outcome :=
  runWords fs (environment.map Word.ofText) (texts.map Word.ofText)

end DocPlan.CommandLine
