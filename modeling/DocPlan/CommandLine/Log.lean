import DocPlan.Diagnostic
import DocPlan.FilePath.Basic
import DocPlan.Json.Printer

/-!
# The log

A run writes its diagnostics to a log, one event each, after an event that says
where it starts. Warnings and errors are always shown, the others if asked for.
An event is shown as a text or as an object.

In a text, characters that a terminal takes for commands are spelled out; an
object escapes them anyway.
-/

namespace DocPlan.CommandLine

inductive LogEvent where
  /-- A run starts in a directory. -/
  | starting (directory : FilePath)
  | reported (diagnostic : Diagnostic)

namespace LogEvent

def level : LogEvent → String
  | .starting _ => "DEBUG"
  | .reported diagnostic =>
    match diagnostic.severity with
    | .info => "INFO"
    | .warn => "WARN"
    | .error => "ERROR"

/-- Whether an event is shown without being asked for. -/
def isUrgent : LogEvent → Bool
  | .starting _ => false
  | .reported diagnostic => diagnostic.severity ≠ .info

/-- The events that are shown. -/
def shown (verbose : Bool) (events : List LogEvent) : List LogEvent :=
  if verbose then events else events.filter isUrgent

/-- A number below 256 as two digits to the base sixteen. -/
def twoDigits (n : Nat) : List Char := [Json.hexChar (n / 16), Json.hexChar (n % 16)]

/-- The characters that stand for a character in a text. -/
def spelledOut (c : Char) : List Char :=
  if c ∈ ['\x07', '\x08', '\x0c', '\x1b', '\x7f'] then '\\' :: 'x' :: twoDigits c.toNat
  else if 0x80 ≤ c.toNat && c.toNat ≤ 0x9f then
    ['\\', 'u', '\x7b'] ++ twoDigits c.toNat ++ ['\x7d']
  else [c]

def message : LogEvent → String
  | .starting _ => "starting"
  | .reported diagnostic => diagnostic.message

/-- What an event says besides its message. -/
def field : LogEvent → String × String
  | .starting directory => ("cwd", directory.toString)
  | .reported diagnostic => ("code", diagnostic.code)

/-- An event as a text. -/
def text (event : LogEvent) : String :=
  let message := String.ofList (event.message.toList.flatMap spelledOut)
  s!"{event.level} {message} {event.field.1}={event.field.2}"

/-- An event as an object. -/
def toJson (event : LogEvent) : Json :=
  .object [("level", .string event.level),
    ("fields", .object
      [("message", .string event.message), (event.field.1, .string event.field.2)]),
    ("target", .string "dtsdoc")]

end LogEvent

end DocPlan.CommandLine
