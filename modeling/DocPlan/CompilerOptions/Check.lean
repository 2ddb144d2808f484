import DocPlan.CompilerOptions.Table
import DocPlan.Json.Basic
import DocPlan.Report

/-!
# Checking compiler options

Each option is judged on its own (`CompilerOptions.judge`): null unsets it, an
option that is not in the table is kept with a warning, and a known one must
have a value of its kind. Options with a fixed choice, and the texts of a
lowercase list, are written in lower case.

`CompilerOptions.check` puts the verdicts together: the warnings in order, and
either every kept option in order or every problem in order.
-/

namespace DocPlan.CompilerOptions

/-- A check of merged options: the options to use, or what is wrong with them. -/
abbrev Checker := Members → Noted (Except (List String) Members)

/-- A text with the ASCII letters in lower case. -/
def lowerAscii (text : String) : String :=
  String.ofList (text.toList.map Char.toLower)

def wrongType (name : String) (kind : OptionKind) : String :=
  s!"Compiler option '{name}' requires a value of type {kind.typeName}."

def notTexts (name : String) : String :=
  s!"Compiler option '{name}' requires a list of strings."

def notAllowed (name : String) (allowed : List String) : String :=
  let choices := ", ".intercalate (allowed.map fun choice => s!"'{choice}'")
  s!"Argument for '--{name}' option must be: {choices}."

/-- The texts of a list, if it holds nothing else. -/
def texts? : List Json → Option (List String)
  | [] => some []
  | .string text :: rest => (texts? rest).map (text :: ·)
  | _ :: _ => none

/-- A list of texts, each written in some way. -/
def checkTexts (name : String) (write : String → String) (items : List Json) :
    Except String Json :=
  match texts? items with
  | some texts => .ok (Json.strings (texts.map write))
  | none => .error (notTexts name)

/-- The value of a known option as it is to be used, or what is wrong with it. -/
def checkValue (name : String) (kind : OptionKind) (value : Json) : Except String Json :=
  match kind, value with
  | .boolean, .boolean b => .ok (.boolean b)
  | .text, .string text => .ok (.string text)
  | .number, .number n => .ok (.number n)
  | .object, .object members => .ok (.object members)
  | .objectList, .array items =>
    if items.all Json.isObject then .ok (.array items) else .error (wrongType name kind)
  | .textList, .array items => checkTexts name id items
  | .lowercaseList, .array items => checkTexts name lowerAscii items
  | .choice allowed, .string text =>
    if lowerAscii text ∈ allowed then .ok (.string (lowerAscii text))
    else .error (notAllowed name allowed)
  | kind, _ => .error (wrongType name kind)

/-- What becomes of an option. -/
inductive Verdict where
  /-- The option is to have no value. -/
  | unset
  /-- The option is not in the table. -/
  | unknown (value : Json)
  | known (value : Json)
  | bad (problem : String)

/-- The verdict on an option and its value. -/
def judge (name : String) (value : Json) : Verdict :=
  if value.isNull then .unset
  else
    match kind? name with
    | none => .unknown value
    | some kind =>
      match checkValue name kind value with
      | .ok value => .known value
      | .error problem => .bad problem

/-- The warning that goes with a verdict. -/
def warning? (option : String × Json) : Option Diagnostic :=
  match judge option.1 option.2 with
  | .unknown _ =>
    some ⟨.warn, "UNKNOWN_COMPILER_OPTION",
      s!"Unknown compiler option '{option.1}'; passing it through."⟩
  | _ => none

/-- The option as it is to be used. -/
def kept? (option : String × Json) : Option (String × Json) :=
  match judge option.1 option.2 with
  | .unknown value => some (option.1, value)
  | .known value => some (option.1, value)
  | _ => none

/-- What is wrong with an option. -/
def problem? (option : String × Json) : Option String :=
  match judge option.1 option.2 with
  | .bad problem => some problem
  | _ => none

/-- Checks every option against the table. -/
def check : Checker := fun options =>
  let problems := options.filterMap problem?
  ⟨options.filterMap warning?,
    if problems.isEmpty then .ok (options.filterMap kept?) else .error problems⟩

end DocPlan.CompilerOptions
