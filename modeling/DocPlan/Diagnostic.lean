import DocPlan.Json.Basic

/-!
# Diagnostics

What a run has to say besides its result: a severity, a stable code and a
message, in the order in which they were reported.
-/

namespace DocPlan

inductive Severity where
  | info
  | warn
  | error
  deriving DecidableEq, Repr

namespace Severity

def name : Severity → String
  | .info => "info"
  | .warn => "warn"
  | .error => "error"

/-- From the mildest to the gravest. -/
def rank : Severity → Nat
  | .info => 0
  | .warn => 1
  | .error => 2

/-- The graver of two severities. -/
def max (a b : Severity) : Severity := if a.rank ≤ b.rank then b else a

def all : List Severity := [.info, .warn, .error]

/-- The severity that a value names. -/
def ofJson? : Json → Option Severity :=
  Json.choice? (all.map fun severity => (severity.name, severity))

end Severity

structure Diagnostic where
  severity : Severity
  code : String
  message : String
  deriving DecidableEq, Repr

namespace Diagnostic

/-- The gravest severity in a list. -/
def maxSeverity? (diagnostics : List Diagnostic) : Option Severity :=
  (diagnostics.map (·.severity)).foldl
    (fun gravest severity => some (match gravest with
      | some other => other.max severity
      | none => severity)) none

def withSeverity (severity : Severity) (diagnostics : List Diagnostic) : List Diagnostic :=
  diagnostics.filter (·.severity = severity)

def hasCode (code : String) (diagnostics : List Diagnostic) : Bool :=
  diagnostics.any (·.code = code)

def countCode (code : String) (diagnostics : List Diagnostic) : Nat :=
  (diagnostics.filter (·.code = code)).length

def toJson (diagnostic : Diagnostic) : Json :=
  .object [("code", .string diagnostic.code),
    ("severity", .string diagnostic.severity.name),
    ("message", .string diagnostic.message)]

/-- A diagnostic from its three parts as values. -/
def ofParts? (code severity message : Json) : Option Diagnostic := do
  let code ← code.string?
  let severity ← Severity.ofJson? severity
  let message ← message.string?
  return ⟨severity, code, message⟩

/-- The diagnostic that a value describes: an object with the three members, or a
list of code, severity and message. -/
def ofJson? : Json → Option Diagnostic
  | .object members => do
    ofParts? (← Keyed.get? "code" members) (← Keyed.get? "severity" members)
      (← Keyed.get? "message" members)
  | .array [code, severity, message] => ofParts? code severity message
  | _ => none

end Diagnostic

end DocPlan
